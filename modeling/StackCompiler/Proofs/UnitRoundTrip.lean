import StackCompiler.Proofs.UnitReading

/-! Source units survive being written and read.
The text of a unit holds well-formed numbers only, so it is read as the value that was written, and from
that value the unit is read back. -/
namespace StackCompiler

open Json (Readable Trimmed)

variable {double : Float → Json}

namespace Json

theorem wellFormed_int (n : Int) : (int n).WellFormed := Number.wellFormed_digits _ _ _

@[simp] theorem wellFormed_str (s : String) : (str s).WellFormed := trivial

@[simp] theorem wellFormed_array {items : List Json} :
    (array items).WellFormed ↔ ∀ item ∈ items, item.WellFormed := by
  rw [WellFormed,wellFormedItems_iff]

@[simp] theorem wellFormed_record {members : Fields} :
    (record members).WellFormed ↔ ∀ m ∈ members, m.2.WellFormed := by
  rw [record,WellFormed,wellFormedMembers_iff,List.forall_mem_map]

@[simp] theorem wellFormed_line (line : Line) : (Line.toJson line).WellFormed := wellFormed_int _

end Json

attribute [local simp] Json.tagged Json.located Json.list Json.wellFormed_int

theorem SymbolClass.wellFormed (c : SymbolClass) : c.toJson.WellFormed := by
  cases c <;> trivial

theorem Discipline.wellFormed (d : Discipline) : d.toJson.WellFormed := by
  cases d <;> trivial

theorem Extent.wellFormed (x : Extent) : x.toJson.WellFormed := by
  cases x with
  | fixed n => simp [toJson,Json.nat]
  | dynamic => trivial

theorem Literal.wellFormed {l : Literal} (h : ∀ x ∈ l.doubles, Readable double x) :
    (l.toJson double).WellFormed := by
  cases l with
  | integer n => simp [toJson]
  | double x => simpa [toJson] using (h x List.mem_cons_self).wellFormed
  | char s => simp [toJson]
  | boolean b => simp [toJson,Json.WellFormed]

mutual

theorem Expr.wellFormed : ∀ (e : Expr), (∀ x ∈ e.doubles, Readable double x) →
    (e.toJson double).WellFormed
  | .literal line value, h => by simp [toJson,Literal.wellFormed h]
  | .ident line name, h => by simp [toJson]
  | .index line name indices, h => by
    have hindices := wellFormedAll indices h
    simpa [toJson] using hindices
  | .unary line op operand, h => by
    have hoperand := Expr.wellFormed operand h
    simp [toJson,UnaryOp.toJson,hoperand]
  | .binary line left op right, h => by
    rw [doubles,List.forall_mem_append] at h
    have hleft := Expr.wellFormed left h.1
    have hright := Expr.wellFormed right h.2
    simp [toJson,BinaryOp.toJson,hleft,hright]
  | .call line name args, h => by
    have hargs := wellFormedAll args h
    simpa [toJson] using hargs

theorem Expr.wellFormedAll : ∀ (es : List Expr), (∀ x ∈ doublesIn es, Readable double x) →
    ∀ v ∈ listToJson double es, v.WellFormed
  | [], _, _, hv => by cases hv
  | e :: rest, h, v, hv => by
    rw [doublesIn,List.forall_mem_append] at h
    have hfirst := Expr.wellFormed e h.1
    have hrest := Expr.wellFormedAll rest h.2
    rcases List.mem_cons.mp hv with rfl | hv
    · exact hfirst
    · exact hrest v hv

end

theorem Declaration.wellFormed {d : Declaration} (h : ∀ x ∈ d.doubles, Readable double x) :
    (d.toJson double).WellFormed := by
  rw [doubles,List.forall_mem_append] at h
  have hvalue : (Json.option (Literal.toJson double) d.value).WellFormed := by
    cases hd : d.value with
    | none => trivial
    | some l =>
      rw [hd] at h
      exact Literal.wellFormed h.1
  have hextents := Expr.wellFormedAll d.extents h.2
  simpa [toJson,BaseType.toJson,SymbolClass.wellFormed,Extent.wellFormed,hvalue] using hextents

theorem Target.wellFormed {t : Target} (h : ∀ x ∈ t.doubles, Readable double x) :
    (t.toJson double).WellFormed := by
  have hindices := Expr.wellFormedAll t.indices h
  simpa [toJson] using hindices

mutual

theorem Stmt.wellFormed : ∀ (x : Stmt), (∀ d ∈ x.doubles, Readable double d) →
    (x.toJson double).WellFormed
  | .declare line d, h => by simp [toJson,Declaration.wellFormed h]
  | .share line names, h => by simp [toJson]
  | .assign line target value, h => by
    rw [doubles,List.forall_mem_append] at h
    simp [toJson,Target.wellFormed h.1,value.wellFormed h.2]
  | .call line name args, h => by
    have hargs := Expr.wellFormedAll args h
    simpa [toJson] using hargs
  | .ifElse line cond yes no, h => by
    rw [doubles,List.forall_mem_append,List.forall_mem_append] at h
    have hyes := wellFormedAll yes h.1.2
    have hno := wellFormedAll no h.2
    simpa [toJson,cond.wellFormed h.1.1] using ⟨hyes,hno⟩
  | .whileDo line cond body, h => by
    rw [doubles,List.forall_mem_append] at h
    have hbody := wellFormedAll body h.2
    simpa [toJson,cond.wellFormed h.1] using hbody
  | .repeatUntil line body cond, h => by
    rw [doubles,List.forall_mem_append] at h
    have hbody := wellFormedAll body h.2
    simpa [toJson,cond.wellFormed h.1] using hbody
  | .forTo line var first last step body, h => by
    simp only [doubles,List.forall_mem_append] at h
    obtain ⟨⟨⟨hfirst,hlast⟩,hstep⟩,hbody⟩ := h
    have hby : (Json.option (Expr.toJson double) step).WellFormed := by
      cases step with
      | none => trivial
      | some e => exact e.wellFormed hstep
    have hdo := wellFormedAll body hbody
    simpa [toJson,first.wellFormed hfirst,last.wellFormed hlast,hby] using hdo
  | .label line name, h | .goto line name, h | .stop line, h => by simp [toJson]
  | .ret line value, h => by
    have hvalue : (Json.option (Expr.toJson double) value).WellFormed := by
      cases value with
      | none => trivial
      | some e => exact e.wellFormed h
    simp [toJson,hvalue]
  | .print line values, h => by
    have hvalues := Expr.wellFormedAll values h
    simpa [toJson] using hvalues

theorem Stmt.wellFormedAll : ∀ (xs : List Stmt), (∀ d ∈ doublesIn xs, Readable double d) →
    ∀ v ∈ listToJson double xs, v.WellFormed
  | [], _, _, hv => by cases hv
  | x :: rest, h, v, hv => by
    rw [doublesIn,List.forall_mem_append] at h
    have hfirst := Stmt.wellFormed x h.1
    have hrest := Stmt.wellFormedAll rest h.2
    rcases List.mem_cons.mp hv with rfl | hv
    · exact hfirst
    · exact hrest v hv

end

theorem Param.wellFormed (p : Param) : p.toJson.WellFormed := by
  simp [toJson,BaseType.toJson,Extent.wellFormed]

mutual

theorem Routine.wellFormed : ∀ (x : Routine), (∀ d ∈ x.doubles, Readable double d) →
    (x.toJson double).WellFormed
  | ⟨name,discipline,params,returns,body,routines,line⟩, h => by
    rw [doubles,List.forall_mem_append] at h
    have hbody := Stmt.wellFormedAll body h.1
    have hroutines := wellFormedAll routines h.2
    simpa [toJson,discipline.wellFormed,Param.wellFormed,BaseType.toJson] using ⟨hbody,hroutines⟩

theorem Routine.wellFormedAll : ∀ (xs : List Routine), (∀ d ∈ doublesIn xs, Readable double d) →
    ∀ v ∈ listToJson double xs, v.WellFormed
  | [], _, _, hv => by cases hv
  | x :: rest, h, v, hv => by
    rw [doublesIn,List.forall_mem_append] at h
    have hfirst := Routine.wellFormed x h.1
    have hrest := Routine.wellFormedAll rest h.2
    rcases List.mem_cons.mp hv with rfl | hv
    · exact hfirst
    · exact hrest v hv

end

theorem SourceUnit.wellFormed {u : SourceUnit} (h : ∀ x ∈ u.doubles, Readable double x) :
    (u.toJson double).WellFormed := by
  rw [doubles,List.forall_mem_append,List.forall_mem_append] at h
  have hglobals : ∀ d ∈ u.globals, (d.toJson double).WellFormed := by
    intro d hd
    exact Declaration.wellFormed fun x hx => h.1.1 x (List.mem_flatMap_of_mem hd hx)
  have hmain := Stmt.wellFormedAll u.main h.1.2
  have hroutines := Routine.wellFormedAll u.routines h.2
  simpa [toJson,Language.toJson] using ⟨hglobals,hmain,hroutines⟩

/-- A unit survives being written and read, if its doubles do and it is not nested too deeply; and it does
so when members that hold their defaults are left out, in whatever text such a value is written. -/
theorem SourceUnit.parse?_toJson {u : SourceUnit} (hdoubles : ∀ x ∈ u.doubles, Readable double x)
    (hdepth : (u.toJson double).depth ≤ maxLevels) :
    parse? (u.toJson double).render = some u ∧
    ∀ v, Trimmed defaults "" (u.toJson double) v → parse? v.render = some u ∧
      ∀ s, Json.parse? s = some v → parse? s = some u := by
  have hread : ∀ v, Trimmed defaults "" (u.toJson double) v → ∀ s, Json.parse? s = some v →
      parse? s = some u := by
    intro v hv s hs
    unfold parse?
    rw [hs]
    exact restores hdoubles hv (hv.depth_le.trans hdepth)
  have hrender : ∀ v, Trimmed defaults "" (u.toJson double) v → parse? v.render = some u := by
    intro v hv
    exact hread v hv _ (Json.parse?_render (hv.wellFormed _ (wellFormed hdoubles)))
  exact ⟨hrender _ (.refl _ _),fun v hv => ⟨hrender v hv,hread v hv⟩⟩

def twoAndHalf : Float := UInt64.toFloat 25 / Decimal.Scaled.power 1

def twoAndHalfToken : Json :=
  .number { negative := false, whole := Json.Number.digits 25, exponent := some (-1) }

theorem readable_twoAndHalf : Readable (fun _ => twoAndHalfToken) twoAndHalf where
  wellFormed := Json.Number.wellFormed_digits _ _ _
  read := by rfl

/-- A constant, an array element, a function; most of what has a default holds it. -/
def area : SourceUnit :=
  { name := "AREA"
    language := .comal
    globals := [
      { name := "r", base := .double, cls := .constant, value := some (.double twoAndHalf), line := 1 },
      { name := "a", base := .double, dimensions := [.fixed 3] }]
    main := [
      .assign 2 { name := "a", indices := [.literal 2 (.integer 1)] } (.call 2 "square" [.ident 2 "r"]),
      .print 3 [.index 3 "a" [.literal 3 (.integer 1)]],
      .stop 4]
    routines := [
      { name := "square"
        discipline := .closed
        params := [{ name := "x", base := .double }]
        returns := .double
        body := [
          .assign noLine { name := "x" } (.binary 7 (.ident 7 "x") .mul (.ident 7 "x")),
          .ret noLine (some (.ident noLine "x"))] }] }

def areaTrimmed : Json :=
  .record [("name",.str "AREA"),("language",.str "Comal"),
    ("globals",.array [
      .record [("name",.str "r"),("base",.str "Double"),("class",.str "Constant"),
        ("value",.tagged "Double" twoAndHalfToken),("line",.int 1)],
      .record [("name",.str "a"),("base",.str "Double"),
        ("dimensions",.array [.tagged "Fixed" (.int 3)])]]),
    ("main",.array [
      .located (.tagged "Assign" (.record [
        ("target",.record [("name",.str "a"),
          ("indices",.array [.located (.tagged "Literal" (.tagged "Integer" (.int 1))) 2])]),
        ("value",.located (.tagged "Call" (.record [("name",.str "square"),
          ("args",.array [.located (.tagged "Ident" (.str "r")) 2])])) 2)])) 2,
      .located (.tagged "Print" (.array [.located (.tagged "Index" (.record [("name",.str "a"),
        ("indices",.array [.located (.tagged "Literal" (.tagged "Integer" (.int 1))) 3])])) 3])) 3,
      .located (.str "Stop") 4]),
    ("routines",.array [.record [("name",.str "square"),("discipline",.str "Closed"),
      ("params",.array [.record [("name",.str "x"),("base",.str "Double")]]),
      ("return_type",.str "Double"),
      ("body",.array [
        .record [("kind",.tagged "Assign" (.record [("target",.record [("name",.str "x")]),
          ("value",.located (.tagged "Binary" (.record [
            ("left",.located (.tagged "Ident" (.str "x")) 7),("op",.str "Mul"),
            ("right",.located (.tagged "Ident" (.str "x")) 7)])) 7)]))],
        .record [("kind",.tagged "Return"
          (.record [("kind",.tagged "Ident" (.str "x"))]))]])]])]

/-- A unit with a double that is read back, in full and with all defaults left out. -/
theorem SourceUnit.parse?_toJson_area :
    Trimmed defaults "" (area.toJson fun _ => twoAndHalfToken) areaTrimmed ∧
    parse? (area.toJson fun _ => twoAndHalfToken).render = some area ∧
    parse? areaTrimmed.render = some area := by
  have hdoubles : ∀ x ∈ area.doubles, Readable (fun _ => twoAndHalfToken) x := by
    intro x hx
    have hsingle : area.doubles = [twoAndHalf] := rfl
    rw [hsingle,List.mem_singleton] at hx
    rw [hx]
    exact readable_twoAndHalf
  have htrimmed : Trimmed defaults "" (area.toJson fun _ => twoAndHalfToken) areaTrimmed := by
    repeat' constructor
  obtain ⟨hfull,htrim⟩ := parse?_toJson hdoubles (by decide +kernel)
  exact ⟨htrimmed,hfull,(htrim areaTrimmed htrimmed).1⟩

end StackCompiler
