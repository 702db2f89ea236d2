import StackCompiler.Proofs.LeftOutMembers
import StackCompiler.SourceUnit.Reader
import StackCompiler.SourceUnit.Writer

/-! Reading what is written for source units.
Each part of a unit is read back from the value that is written for it, also if members that hold their
defaults are left out, at any depth. Doubles are assumed to be read back, which their decimals alone do
not guarantee. -/
namespace StackCompiler

def Literal.doubles : Literal → List Float
  | .double x => [x]
  | _ => []

mutual

def Expr.doubles : Expr → List Float
  | .literal _ value => value.doubles
  | .ident .. => []
  | .index _ _ indices => Expr.doublesIn indices
  | .unary _ _ operand => operand.doubles
  | .binary _ left _ right => left.doubles ++ right.doubles
  | .call _ _ args => Expr.doublesIn args

def Expr.doublesIn : List Expr → List Float
  | [] => []
  | e :: rest => e.doubles ++ Expr.doublesIn rest

end

def Declaration.doubles (d : Declaration) : List Float :=
  d.value.elim [] Literal.doubles ++ Expr.doublesIn d.extents

def Target.doubles (t : Target) : List Float := Expr.doublesIn t.indices

mutual

def Stmt.doubles : Stmt → List Float
  | .declare _ d => d.doubles
  | .assign _ target value => target.doubles ++ value.doubles
  | .call _ _ args | .print _ args => Expr.doublesIn args
  | .ifElse _ cond yes no => cond.doubles ++ Stmt.doublesIn yes ++ Stmt.doublesIn no
  | .whileDo _ cond body | .repeatUntil _ body cond => cond.doubles ++ Stmt.doublesIn body
  | .forTo _ _ first last step body =>
    first.doubles ++ last.doubles ++ step.elim [] Expr.doubles ++ Stmt.doublesIn body
  | .ret _ value => value.elim [] Expr.doubles
  | .share .. | .label .. | .goto .. | .stop _ => []

def Stmt.doublesIn : List Stmt → List Float
  | [] => []
  | s :: rest => s.doubles ++ Stmt.doublesIn rest

end

mutual

def Routine.doubles : Routine → List Float
  | ⟨_,_,_,_,body,routines,_⟩ => Stmt.doublesIn body ++ Routine.doublesIn routines

def Routine.doublesIn : List Routine → List Float
  | [] => []
  | r :: rest => r.doubles ++ Routine.doublesIn rest

end

def SourceUnit.doubles (u : SourceUnit) : List Float :=
  u.globals.flatMap Declaration.doubles ++ Stmt.doublesIn u.main ++ Routine.doublesIn u.routines

def SourceUnit.default? (key : String) : Option Json :=
  [("line",Line.toJson noLine),("class",SymbolClass.toJson .variable),
    ("discipline",Discipline.toJson .opened),("return_type",BaseType.toJson .void),
    ("value",.null),("step",.null),("indices",.array []),("dimensions",.array []),
    ("extents",.array []),("args",.array []),("else_branch",.array []),("params",.array []),
    ("routines",.array []),("globals",.array []),("main",.array [])].lookup key

/-- The subscripts of an array element and the value of an assignment may not be left out. -/
def SourceUnit.defaults : Json.Defaults := fun parent key =>
  if key = "indices" ∧ parent = "Index" ∨ key = "value" ∧ parent = "Assign" then none else default? key

theorem SourceUnit.default?_of_defaults {parent key : String} {v : Json}
    (h : defaults parent key = some v) : default? key = some v := by
  unfold defaults at h
  split at h
  · cases h
  · exact h

namespace Json

open SourceUnit (defaults)

structure Readable (double : Float → Json) (x : Float) : Prop where
  wellFormed : (double x).WellFormed
  read : (double x).double? = some x

theorem restores_double {double : Float → Json} {x : Float} (h : Readable double x) :
    Restores defaults double (fun _ => double?) x := by
  intro parent v n htrimmed _
  have hread := h.read
  generalize double x = token at htrimmed hread
  cases htrimmed with
  | number => exact hread
  | _ => cases hread

end Json

open Json (Restores Readable Trimmed)
open SourceUnit (defaults)

variable {double : Float → Json}

theorem BaseType.restores (b : BaseType) : Restores defaults toJson ofJson? b :=
  Json.restores_oneOf rfl (by cases b <;> rfl)

theorem UnaryOp.restores (op : UnaryOp) : Restores defaults toJson ofJson? op :=
  Json.restores_oneOf rfl (by cases op <;> rfl)

theorem BinaryOp.restores (op : BinaryOp) : Restores defaults toJson ofJson? op :=
  Json.restores_oneOf rfl (by cases op <;> rfl)

theorem Language.restores (l : Language) : Restores defaults toJson ofJson? l :=
  Json.restores_oneOf rfl (by cases l <;> rfl)

theorem SymbolClass.restores (c : SymbolClass) : Restores defaults toJson ofJson? c := by
  cases c <;> exact Json.restores_oneOf rfl rfl

theorem Discipline.restores (d : Discipline) : Restores defaults toJson ofJson? d := by
  cases d <;> exact Json.restores_oneOf rfl rfl

theorem Extent.restores (x : Extent) : Restores defaults toJson ofJson? x := by
  intro parent v n htrimmed hdepth
  cases x with
  | fixed size =>
    obtain ⟨content,k,rfl,rfl,hcontent,hk⟩ := htrimmed.single hdepth rfl
    rw [ofJson?]
    exact congrArg (Option.map fixed) (Json.restores_uint64 size hcontent hk)
  | dynamic =>
    cases htrimmed
    cases n <;> rfl

theorem Extent.restores_list (xs : List Extent) :
    Restores defaults (Json.list toJson) (Json.list? ofJson?) xs :=
  Json.restores_list fun x _ => x.restores

theorem Literal.restores {l : Literal} (h : ∀ x ∈ l.doubles, Readable double x) :
    Restores defaults (toJson double) ofJson? l := by
  intro parent v n htrimmed hdepth
  cases l with
  | integer i =>
    obtain ⟨content,k,rfl,rfl,hcontent,hk⟩ := htrimmed.single hdepth rfl
    rw [ofJson?]
    exact congrArg (Option.map integer) (Json.restores_int64 i hcontent hk)
  | double x =>
    obtain ⟨content,k,rfl,rfl,hcontent,hk⟩ := htrimmed.single hdepth rfl
    rw [ofJson?]
    exact congrArg (Option.map Literal.double)
      (Json.restores_double (h x List.mem_cons_self) hcontent hk)
  | char s =>
    obtain ⟨content,k,rfl,rfl,hcontent,hk⟩ := htrimmed.single hdepth rfl
    rw [ofJson?]
    exact congrArg (Option.map char) (Json.restores_str s hcontent hk)
  | boolean b =>
    obtain ⟨content,k,rfl,rfl,hcontent,hk⟩ := htrimmed.single hdepth rfl
    rw [ofJson?]
    exact congrArg (Option.map boolean) (Json.restores_bool b hcontent hk)

section located

variable {parent : String} {n : Json.Levels} {line : Line}

theorem Json.Opened.line_eq {members fs : Json.Fields} (h : Json.Opened defaults parent members fs n)
    (hline : members.lookup "line" = some (Line.toJson line)) : fs.line = some line := by
  apply h.optional "line" (Json.restores_int32 line) hline (Json.restores_int32 noLine)
  rintro _ ⟨⟩
  rfl

/-- A record of a kind and a line is read back if its kind is. -/
theorem Json.restores_located {α : Type} {write : α → Json} {read : Json.Levels → Json → Option α}
    {ofKind : Json.Levels → Line → Json → Option α} {a : α} {kind : Json}
    (hread : ∀ n v, read (n + 1) v = (Json.fields? ["kind","line"] v).bind fun fs =>
      fs.line.bind fun line => fs.required "kind" (ofKind n line))
    (hwrite : write a = .located kind line)
    (h : ∀ ⦃v n⦄, Trimmed defaults "kind" kind v → v.depth ≤ n → ofKind n line v = some a) :
    Restores defaults write read a := by
  intro parent v n htrimmed hdepth
  rw [hwrite] at htrimmed
  obtain ⟨fs,k,rfl,rfl,ho⟩ := htrimmed.opened hdepth (by simp)
  have hfound : [("kind",kind),("line",Line.toJson line)].lookup "kind" = some kind := rfl
  rw [hread,ho.fields?,Option.bind_some,ho.line_eq rfl,Option.bind_some,Json.Fields.required]
  obtain ⟨kind',hlookup,hkind⟩ | ⟨_,hdefault⟩ := ho.kept.lookup ho.keys hfound
  · rw [hlookup]
    exact h hkind (ho.depth_of_lookup hlookup)
  · cases hdefault

end located

theorem Expr.listToJson_eq_map (es : List Expr) : listToJson double es = es.map (toJson double) := by
  induction es with
  | nil => rfl
  | cons e rest ih => rw [listToJson,ih,List.map_cons]

theorem Expr.listOfJson?_eq_list? (n : Json.Levels) (v : Json) :
    listOfJson? n v = Json.list? ofJson? n v := by
  cases n <;> cases v <;> rfl

theorem Expr.restores_list {es : List Expr}
    (h : ∀ e ∈ es, Restores defaults (toJson double) ofJson? e) :
    Restores defaults (fun es => .array (listToJson double es)) listOfJson? es :=
  Json.restores_array listToJson_eq_map listOfJson?_eq_list? h

theorem Expr.ofJson?_succ (n : Json.Levels) (v : Json) :
    ofJson? (n + 1) v = (Json.fields? ["kind","line"] v).bind fun fs =>
      fs.line.bind fun line => fs.required "kind" (ofKind? n line) := by
  rw [ofJson?]
  rfl

theorem Expr.restores_nil :
    Restores defaults (fun es => .array (listToJson double es)) listOfJson? [] :=
  restores_list fun e he => by cases he

mutual

theorem Expr.restores : ∀ (e : Expr), (∀ x ∈ e.doubles, Readable double x) →
    Restores defaults (toJson double) ofJson? e
  | .literal line value, h => by
    apply Json.restores_located ofJson?_succ rfl
    intro v n hkind hdepth
    obtain ⟨content,k,rfl,rfl,hcontent,hk⟩ := hkind.single hdepth rfl
    rw [ofKind?]
    exact congrArg (Option.map (literal line)) (Literal.restores h hcontent hk)
  | .ident line name, h => by
    apply Json.restores_located ofJson?_succ rfl
    intro v n hkind hdepth
    obtain ⟨content,k,rfl,rfl,hcontent,hk⟩ := hkind.single hdepth rfl
    rw [ofKind?]
    exact congrArg (Option.map (ident line)) (Json.restores_str name hcontent hk)
  | .index line name indices, h => by
    apply Json.restores_located ofJson?_succ rfl
    intro v n hkind hdepth
    obtain ⟨fs,k,rfl,rfl,ho⟩ := hkind.nested hdepth rfl (by simp)
    have hname := ho.required "name" (Json.restores_str name) rfl rfl
    have hindices := ho.required "indices" (restores_list (restoresAll indices h)) rfl rfl
    rw [ofKind?,ho.fields?]
    simp only [Option.bind_eq_bind,Option.bind_some,hname,hindices]
  | .unary line op operand, h => by
    apply Json.restores_located ofJson?_succ rfl
    intro v n hkind hdepth
    obtain ⟨fs,k,rfl,rfl,ho⟩ := hkind.nested hdepth rfl (by simp)
    have hop := ho.required "op" op.restores rfl rfl
    have hoperand := ho.required "operand" (Expr.restores operand h) rfl rfl
    rw [ofKind?,ho.fields?]
    simp only [Option.bind_eq_bind,Option.bind_some,hop,hoperand]
  | .binary line left op right, h => by
    rw [doubles,List.forall_mem_append] at h
    apply Json.restores_located ofJson?_succ rfl
    intro v n hkind hdepth
    obtain ⟨fs,k,rfl,rfl,ho⟩ := hkind.nested hdepth rfl (by simp)
    have hleft := ho.required "left" (Expr.restores left h.1) rfl rfl
    have hop := ho.required "op" op.restores rfl rfl
    have hright := ho.required "right" (Expr.restores right h.2) rfl rfl
    rw [ofKind?,ho.fields?]
    simp only [Option.bind_eq_bind,Option.bind_some,hleft,hop,hright]
  | .call line name args, h => by
    apply Json.restores_located ofJson?_succ rfl
    intro v n hkind hdepth
    obtain ⟨fs,k,rfl,rfl,ho⟩ := hkind.nested hdepth rfl (by simp)
    have hname := ho.required "name" (Json.restores_str name) rfl rfl
    have hargs := ho.optional "args" (restores_list (restoresAll args h)) rfl restores_nil
      (by rintro _ ⟨⟩; rfl)
    rw [ofKind?,ho.fields?]
    simp only [Option.bind_eq_bind,Option.bind_some,hname,hargs]

theorem Expr.restoresAll : ∀ (es : List Expr), (∀ x ∈ doublesIn es, Readable double x) →
    ∀ e ∈ es, Restores defaults (toJson double) ofJson? e
  | [], _, _, he => by cases he
  | e :: rest, h, x, hx => by
    rw [doublesIn,List.forall_mem_append] at h
    have hfirst := Expr.restores e h.1
    have hrest := Expr.restoresAll rest h.2
    rcases List.mem_cons.mp hx with rfl | hx
    · exact hfirst
    · exact hrest x hx

end

theorem Literal.toJson_ne_null (l : Literal) : l.toJson double ≠ .null := by
  cases l <;> exact Json.noConfusion

theorem Expr.toJson_ne_null (e : Expr) : e.toJson double ≠ .null := by
  cases e <;> exact Json.noConfusion

theorem Declaration.restores {d : Declaration} (h : ∀ x ∈ d.doubles, Readable double x) :
    Restores defaults (toJson double) ofJson? d := by
  rw [doubles,List.forall_mem_append] at h
  intro parent v n htrimmed hdepth
  obtain ⟨fs,k,rfl,rfl,ho⟩ := htrimmed.opened hdepth (by simp)
  have hname := ho.required "name" (Json.restores_str d.name) rfl rfl
  have hbase := ho.required "base" d.base.restores rfl rfl
  have hcls := ho.optional "class" d.cls.restores rfl (SymbolClass.restores .variable)
    (by rintro _ ⟨⟩; rfl)
  have hdimensions := ho.optional "dimensions" (Extent.restores_list d.dimensions) rfl
    Json.restores_nil (by rintro _ ⟨⟩; rfl)
  have hliteral : ∀ l, d.value = some l → Restores defaults (Literal.toJson double) Literal.ofJson? l := by
    intro l hl
    rw [hl] at h
    exact Literal.restores h.1
  have hvalue := ho.nullable "value" hliteral rfl Literal.toJson_ne_null
    fun _ hv => by cases SourceUnit.default?_of_defaults hv; rfl
  have hextents := ho.optional "extents" (Expr.restores_list (Expr.restoresAll d.extents h.2)) rfl
    Expr.restores_nil (by rintro _ ⟨⟩; rfl)
  rw [ofJson?,ho.fields?]
  simp only [Option.bind_eq_bind,Option.bind_some,hname,hbase,hcls,hdimensions,hvalue,hextents,
    ho.line_eq rfl]

theorem Target.restores {t : Target} (h : ∀ x ∈ t.doubles, Readable double x) :
    Restores defaults (toJson double) ofJson? t := by
  intro parent v n htrimmed hdepth
  obtain ⟨fs,k,rfl,rfl,ho⟩ := htrimmed.opened hdepth (by simp)
  have hname := ho.required "name" (Json.restores_str t.name) rfl rfl
  have hindices := ho.optional "indices" (Expr.restores_list (Expr.restoresAll t.indices h)) rfl
    Expr.restores_nil fun _ hv => by cases SourceUnit.default?_of_defaults hv; rfl
  rw [ofJson?,ho.fields?]
  simp only [Option.bind_eq_bind,Option.bind_some,hname,hindices]

theorem Stmt.listToJson_eq_map (xs : List Stmt) : listToJson double xs = xs.map (toJson double) := by
  induction xs with
  | nil => rfl
  | cons x rest ih => rw [listToJson,ih,List.map_cons]

theorem Stmt.listOfJson?_eq_list? (n : Json.Levels) (v : Json) :
    listOfJson? n v = Json.list? ofJson? n v := by
  cases n <;> cases v <;> rfl

theorem Stmt.restores_list {xs : List Stmt}
    (h : ∀ x ∈ xs, Restores defaults (toJson double) ofJson? x) :
    Restores defaults (fun xs => .array (listToJson double xs)) listOfJson? xs :=
  Json.restores_array listToJson_eq_map listOfJson?_eq_list? h

theorem Stmt.restores_nil :
    Restores defaults (fun xs => .array (listToJson double xs)) listOfJson? [] :=
  restores_list fun x hx => by cases hx

theorem Stmt.ofJson?_succ (n : Json.Levels) (v : Json) :
    ofJson? (n + 1) v = (Json.fields? ["kind","line"] v).bind fun fs =>
      fs.line.bind fun line => fs.required "kind" (ofKind? n line) := by
  rw [ofJson?]
  rfl

theorem Stmt.ofKind?_return {value : Option Expr}
    (h : ∀ e, value = some e → Restores defaults (Expr.toJson double) Expr.ofJson? e) {line : Line}
    {v : Json} {n : Json.Levels}
    (hv : Trimmed defaults "Return" (Json.option (Expr.toJson double) value) v) (hn : v.depth ≤ n) :
    ofKind? (n + 1) line (.object [(some "Return",v)]) = some (.ret line value) := by
  cases value with
  | none =>
    cases hv
    rw [ofKind?]
  | some e =>
    have hread := h e rfl hv hn
    cases v with
    | null => cases Expr.toJson_ne_null e hv.eq_null
    | _ =>
      rw [ofKind?,hread]
      · rfl
      · exact Json.noConfusion

mutual

theorem Stmt.restores : ∀ (x : Stmt), (∀ d ∈ x.doubles, Readable double d) →
    Restores defaults (toJson double) ofJson? x
  | .declare line d, h => by
    apply Json.restores_located ofJson?_succ rfl
    intro v n hkind hdepth
    obtain ⟨content,k,rfl,rfl,hcontent,hk⟩ := hkind.single hdepth rfl
    rw [ofKind?]
    exact congrArg (Option.map (declare line)) (Declaration.restores h hcontent hk)
  | .share line names, h => by
    apply Json.restores_located ofJson?_succ rfl
    intro v n hkind hdepth
    obtain ⟨content,k,rfl,rfl,hcontent,hk⟩ := hkind.single hdepth rfl
    rw [ofKind?]
    exact congrArg (Option.map (share line))
      (Json.restores_list (fun s _ => Json.restores_str s) hcontent hk)
  | .assign line target value, h => by
    rw [doubles,List.forall_mem_append] at h
    apply Json.restores_located ofJson?_succ rfl
    intro v n hkind hdepth
    obtain ⟨fs,k,rfl,rfl,ho⟩ := hkind.nested hdepth rfl (by simp)
    have htarget := ho.required "target" (Target.restores h.1) rfl rfl
    have hvalue := ho.required "value" (value.restores h.2) rfl rfl
    rw [ofKind?,ho.fields?]
    simp only [Option.bind_eq_bind,Option.bind_some,htarget,hvalue]
  | .stop line, h => by
    apply Json.restores_located ofJson?_succ rfl
    intro v n hkind hdepth
    cases hkind
    cases n <;> rfl
  | .ret line value, h => by
    apply Json.restores_located ofJson?_succ rfl
    intro v n hkind hdepth
    obtain ⟨content,k,rfl,rfl,hcontent,hk⟩ := hkind.single hdepth rfl
    apply ofKind?_return _ hcontent hk
    rintro e rfl
    exact e.restores h
  | .call line name args, h => by
    apply Json.restores_located ofJson?_succ rfl
    intro v n hkind hdepth
    obtain ⟨fs,k,rfl,rfl,ho⟩ := hkind.nested hdepth rfl (by simp)
    have hname := ho.required "name" (Json.restores_str name) rfl rfl
    have hargs := ho.optional "args" (Expr.restores_list (Expr.restoresAll args h)) rfl
      Expr.restores_nil (by rintro _ ⟨⟩; rfl)
    rw [ofKind?,ho.fields?]
    simp only [Option.bind_eq_bind,Option.bind_some,hname,hargs]
  | .ifElse line cond yes no, h => by
    rw [doubles,List.forall_mem_append,List.forall_mem_append] at h
    apply Json.restores_located ofJson?_succ rfl
    intro v n hkind hdepth
    obtain ⟨fs,k,rfl,rfl,ho⟩ := hkind.nested hdepth rfl (by simp)
    have hcond := ho.required "cond" (cond.restores h.1.1) rfl rfl
    have hyes := ho.required "then_branch" (restores_list (restoresAll yes h.1.2)) rfl rfl
    have hno := ho.optional "else_branch" (restores_list (restoresAll no h.2)) rfl restores_nil
      (by rintro _ ⟨⟩; rfl)
    rw [ofKind?,ho.fields?]
    simp only [Option.bind_eq_bind,Option.bind_some,hcond,hyes,hno]
  | .whileDo line cond body, h => by
    rw [doubles,List.forall_mem_append] at h
    apply Json.restores_located ofJson?_succ rfl
    intro v n hkind hdepth
    obtain ⟨fs,k,rfl,rfl,ho⟩ := hkind.nested hdepth rfl (by simp)
    have hcond := ho.required "cond" (cond.restores h.1) rfl rfl
    have hbody := ho.required "body" (restores_list (restoresAll body h.2)) rfl rfl
    rw [ofKind?,ho.fields?]
    simp only [Option.bind_eq_bind,Option.bind_some,hcond,hbody]
  | .repeatUntil line body cond, h => by
    rw [doubles,List.forall_mem_append] at h
    apply Json.restores_located ofJson?_succ rfl
    intro v n hkind hdepth
    obtain ⟨fs,k,rfl,rfl,ho⟩ := hkind.nested hdepth rfl (by simp)
    have hbody := ho.required "body" (restores_list (restoresAll body h.2)) rfl rfl
    have hcond := ho.required "until" (cond.restores h.1) rfl rfl
    rw [ofKind?,ho.fields?]
    simp only [Option.bind_eq_bind,Option.bind_some,hbody,hcond]
  | .forTo line var first last step body, h => by
    simp only [doubles,List.forall_mem_append] at h
    obtain ⟨⟨⟨hfirst,hlast⟩,hstep⟩,hbody⟩ := h
    have hexpr : ∀ e, step = some e → Restores defaults (Expr.toJson double) Expr.ofJson? e := by
      rintro e rfl
      exact e.restores hstep
    apply Json.restores_located ofJson?_succ rfl
    intro v n hkind hdepth
    obtain ⟨fs,k,rfl,rfl,ho⟩ := hkind.nested hdepth rfl (by simp)
    have hvar := ho.required "var" (Json.restores_str var) rfl rfl
    have hfrom := ho.required "from" (first.restores hfirst) rfl rfl
    have hto := ho.required "to" (last.restores hlast) rfl rfl
    have hby := ho.nullable "step" hexpr rfl Expr.toJson_ne_null (by rintro _ ⟨⟩; rfl)
    have hdo := ho.required "body" (restores_list (restoresAll body hbody)) rfl rfl
    rw [ofKind?,ho.fields?]
    simp only [Option.bind_eq_bind,Option.bind_some,hvar,hfrom,hto,hby,hdo]
  | .label line name, h => by
    apply Json.restores_located ofJson?_succ rfl
    intro v n hkind hdepth
    obtain ⟨content,k,rfl,rfl,hcontent,hk⟩ := hkind.single hdepth rfl
    rw [ofKind?]
    exact congrArg (Option.map (label line)) (Json.restores_str name hcontent hk)
  | .goto line name, h => by
    apply Json.restores_located ofJson?_succ rfl
    intro v n hkind hdepth
    obtain ⟨content,k,rfl,rfl,hcontent,hk⟩ := hkind.single hdepth rfl
    rw [ofKind?]
    exact congrArg (Option.map (goto line)) (Json.restores_str name hcontent hk)
  | .print line values, h => by
    apply Json.restores_located ofJson?_succ rfl
    intro v n hkind hdepth
    obtain ⟨content,k,rfl,rfl,hcontent,hk⟩ := hkind.single hdepth rfl
    rw [ofKind?]
    exact congrArg (Option.map (print line))
      (Expr.restores_list (Expr.restoresAll values h) hcontent hk)

theorem Stmt.restoresAll : ∀ (xs : List Stmt), (∀ d ∈ doublesIn xs, Readable double d) →
    ∀ x ∈ xs, Restores defaults (toJson double) ofJson? x
  | [], _, _, hx => by cases hx
  | x :: rest, h, y, hy => by
    rw [doublesIn,List.forall_mem_append] at h
    have hfirst := Stmt.restores x h.1
    have hrest := Stmt.restoresAll rest h.2
    rcases List.mem_cons.mp hy with rfl | hy
    · exact hfirst
    · exact hrest y hy

end

theorem Param.restores (p : Param) : Restores defaults toJson ofJson? p := by
  intro parent v n htrimmed hdepth
  obtain ⟨fs,k,rfl,rfl,ho⟩ := htrimmed.opened hdepth (by simp)
  have hname := ho.required "name" (Json.restores_str p.name) rfl rfl
  have hbase := ho.required "base" p.base.restores rfl rfl
  have hdimensions := ho.optional "dimensions" (Extent.restores_list p.dimensions) rfl
    Json.restores_nil (by rintro _ ⟨⟩; rfl)
  rw [ofJson?,ho.fields?]
  simp only [Option.bind_eq_bind,Option.bind_some,hname,hbase,hdimensions,ho.line_eq rfl]

theorem Param.restores_list (xs : List Param) :
    Restores defaults (Json.list toJson) (Json.list? ofJson?) xs :=
  Json.restores_list fun x _ => x.restores

theorem Routine.listToJson_eq_map (xs : List Routine) :
    listToJson double xs = xs.map (toJson double) := by
  induction xs with
  | nil => rfl
  | cons x rest ih => rw [listToJson,ih,List.map_cons]

theorem Routine.listOfJson?_eq_list? (n : Json.Levels) (v : Json) :
    listOfJson? n v = Json.list? ofJson? n v := by
  cases n <;> cases v <;> rfl

theorem Routine.restores_list {xs : List Routine}
    (h : ∀ x ∈ xs, Restores defaults (toJson double) ofJson? x) :
    Restores defaults (fun xs => .array (listToJson double xs)) listOfJson? xs :=
  Json.restores_array listToJson_eq_map listOfJson?_eq_list? h

theorem Routine.restores_nil :
    Restores defaults (fun xs => .array (listToJson double xs)) listOfJson? [] :=
  restores_list fun x hx => by cases hx

mutual

theorem Routine.restores : ∀ (x : Routine), (∀ d ∈ x.doubles, Readable double d) →
    Restores defaults (toJson double) ofJson? x
  | ⟨name,discipline,params,returns,body,routines,line⟩, h => by
    rw [doubles,List.forall_mem_append] at h
    intro parent v n htrimmed hdepth
    obtain ⟨fs,k,rfl,rfl,ho⟩ := htrimmed.opened hdepth (by simp)
    have hname := ho.required "name" (Json.restores_str name) rfl rfl
    have hdiscipline := ho.optional "discipline" discipline.restores rfl (Discipline.restores .opened)
      (by rintro _ ⟨⟩; rfl)
    have hparams := ho.optional "params" (Param.restores_list params) rfl Json.restores_nil
      (by rintro _ ⟨⟩; rfl)
    have hreturns := ho.optional "return_type" returns.restores rfl (BaseType.restores .void)
      (by rintro _ ⟨⟩; rfl)
    have hbody := ho.required "body" (Stmt.restores_list (Stmt.restoresAll body h.1)) rfl rfl
    have hroutines := ho.optional "routines" (restores_list (restoresAll routines h.2)) rfl restores_nil
      (by rintro _ ⟨⟩; rfl)
    rw [ofJson?,ho.fields?]
    simp only [Option.bind_eq_bind,Option.bind_some,hname,hdiscipline,hparams,hreturns,hbody,hroutines,
      ho.line_eq rfl]

theorem Routine.restoresAll : ∀ (xs : List Routine), (∀ d ∈ doublesIn xs, Readable double d) →
    ∀ x ∈ xs, Restores defaults (toJson double) ofJson? x
  | [], _, _, hx => by cases hx
  | x :: rest, h, y, hy => by
    rw [doublesIn,List.forall_mem_append] at h
    have hfirst := Routine.restores x h.1
    have hrest := Routine.restoresAll rest h.2
    rcases List.mem_cons.mp hy with rfl | hy
    · exact hfirst
    · exact hrest y hy

end

theorem SourceUnit.restores {u : SourceUnit} (h : ∀ x ∈ u.doubles, Readable double x) :
    Restores defaults (toJson double) ofJson? u := by
  rw [doubles,List.forall_mem_append,List.forall_mem_append] at h
  have hglobal : ∀ d ∈ u.globals, Restores defaults (Declaration.toJson double) Declaration.ofJson? d := by
    intro d hd
    exact Declaration.restores fun x hx => h.1.1 x (List.mem_flatMap_of_mem hd hx)
  intro parent v n htrimmed hdepth
  obtain ⟨fs,k,rfl,rfl,ho⟩ := htrimmed.opened hdepth (by simp)
  have hname := ho.required "name" (Json.restores_str u.name) rfl rfl
  have hlanguage := ho.required "language" u.language.restores rfl rfl
  have hglobals := ho.optional "globals" (Json.restores_list hglobal) rfl
    Json.restores_nil (by rintro _ ⟨⟩; rfl)
  have hmain := ho.optional "main" (Stmt.restores_list (Stmt.restoresAll u.main h.1.2)) rfl
    Stmt.restores_nil (by rintro _ ⟨⟩; rfl)
  have hroutines := ho.optional "routines" (Routine.restores_list (Routine.restoresAll u.routines h.2))
    rfl Routine.restores_nil (by rintro _ ⟨⟩; rfl)
  rw [ofJson?,ho.fields?]
  simp only [Option.bind_eq_bind,Option.bind_some,hname,hlanguage,hglobals,hmain,hroutines]

end StackCompiler
