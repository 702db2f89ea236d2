import Mathlib.Data.List.Count
import Mathlib.Data.List.Nodup
import StackCompiler.Proofs.Assembly
import StackCompiler.Proofs.LoweredDiscipline
import StackCompiler.Proofs.Names

/-! No label is defined twice.
The labels of a body are numbers that were fresh when its statements were put into code, and the
numbers that its label statements have, each once. -/
namespace StackCompiler

def Instr.label? : Instr → Option Label
  | .label l => some l
  | _ => none

namespace Code

def labels (code : Code) : List Label := code.filterMap Instr.label?

@[simp] theorem labels_nil : labels [] = [] := rfl

@[simp] theorem labels_append (a b : Code) : (a ++ b).labels = a.labels ++ b.labels :=
  List.filterMap_append

@[simp] theorem labels_cons (i : Instr) (code : Code) :
    labels (i :: code) = i.label?.toList ++ code.labels := by
  cases h : i.label? <;> simp [labels,h]

def Plain (code : Code) : Prop := ∀ i ∈ code, i.label? = none ∧ i.target? = none

@[simp] theorem plain_nil : Plain [] := by
  intro i hi
  cases hi

@[simp] theorem plain_cons {i : Instr} {code : Code} :
    Plain (i :: code) ↔ (i.label? = none ∧ i.target? = none) ∧ Plain code :=
  List.forall_mem_cons

@[simp] theorem plain_append {a b : Code} : Plain (a ++ b) ↔ Plain a ∧ Plain b :=
  List.forall_mem_append

theorem Straight.plain {code : Code} (h : Straight code) : code.Plain := by
  intro i hi
  have hi := h i hi
  cases i <;> first | exact ⟨rfl,rfl⟩ | cases hi

@[simp] theorem plain_coercion (c : Coercion) : c.code.Plain := (straight_coercion c).plain

theorem Plain.labels {code : Code} (h : Plain code) : code.labels = [] :=
  List.filterMap_eq_nil_iff.mpr fun i hi => (h i hi).1

end Code

namespace Lowering

open Lower Code

section plain

variable {r : Routine} {s s' : State} {line : Line} {name : String} {code : Code}

theorem plain_allocate {d : Declaration} {array : Place}
    (h : (allocate r d array).Gives s code s') : code.Plain := by
  obtain ⟨sizes,hs,rfl⟩ := gives_allocate.mp h
  simp [(pushesAll_extents d.dimensions hs).straight.plain,Instr.label?,Instr.target?]

theorem plain_allocateGlobal {d : Declaration} (h : (allocateGlobal r d).Gives s code s') :
    code.Plain := by
  rcases gives_allocateGlobal.mp h with ⟨_,h⟩ | ⟨_,rfl,_⟩
  · exact plain_allocate h
  · exact plain_nil

theorem plain_declaration {d : Declaration} (h : (declaration r d).Gives s code s') :
    code.Plain := by
  cases declaration_cases h with
  | global _ h => exact plain_allocateGlobal h
  | plain => exact plain_nil
  | array _ _ _ h => exact plain_allocate h

theorem plain_shareAll : ∀ (names : List String) {s : State} {code : Code} {s' : State},
    (shareAll line names).Gives s code s' → code.Plain
  | [], _, _, _, h => by
    rw [shareAll] at h
    rw [(gives_pure.mp h).1]
    exact plain_nil
  | _ :: rest, _, _, _, h => by
    obtain ⟨symbol,scopes,_,hr⟩ := gives_shareAll_cons.mp h
    exact plain_shareAll rest hr

theorem plain_assign {target : Target} {value : Expr}
    (h : (assign r target value line).Gives s code s') : code.Plain := by
  cases assign_cases h with
  | result _ _ _ _ hx => simp [(pushes_expr r value hx).straight.plain,Instr.label?,Instr.target?]
  | stored _ _ _ _ hx => simp [(pushes_expr r value hx).straight.plain,Instr.label?,Instr.target?]
  | element _ _ _ hp hs hx =>
    have hlen := (gives_arrayPlace.mp hp).2.2.1
    have hi := pushesAll_subscripts r _ hs hlen
    simp [hi.straight.plain,(pushes_expr r value hx).straight.plain,Instr.label?,Instr.target?]

theorem plain_callStmt {args : List Expr} (h : (callStmt r name args line).Gives s code s') :
    code.Plain := by
  obtain ⟨p,hp,rfl⟩ := gives_callStmt.mp h
  obtain ⟨target,signature,t,values,coercions,hc⟩ := call_cases hp
  have hargs := (hc.pushesAll (pushes_exprs r args hc.args)).straight.plain
  rw [hc.type,hc.code]
  cases signature.type.isVoid <;> simp [hargs,Instr.label?,Instr.target?]

theorem plain_ret {value : Option Expr} (h : (ret r value line).Gives s code s') :
    code.Plain := by
  cases ret_cases h with
  | nothing => simp [Instr.label?,Instr.target?]
  | result => simp [Instr.label?,Instr.target?]
  | value _ hx => simp [(pushes_expr r _ hx).straight.plain,Instr.label?,Instr.target?]

theorem plain_printAll : ∀ (values : List Expr) {s : State} {code : Code} {s' : State},
    (printAll r line values).Gives s code s' → code.Plain
  | [], _, _, _, h => by
    rw [printAll] at h
    rw [(gives_pure.mp h).1]
    simp [Instr.label?,Instr.target?]
  | e :: rest, _, _, _, h => by
    obtain ⟨x,t,printer,more,hx,_,hm,rfl⟩ := gives_printAll_cons.mp h
    simp [(pushes_expr r e hx).straight.plain,plain_printAll rest hm,Instr.label?,Instr.target?]

theorem plain_condition {cond : Expr} (h : (condition r cond).Gives s code s') :
    code.Plain :=
  (pushes_condition h).straight.plain

theorem plain_stepOf {type : Ty} {step : Option Expr} {p : Code × Step}
    (h : StepCase r type s step p s') : p.1.Plain := by
  cases h with
  | one => exact plain_nil
  | constant => exact plain_nil
  | dynamic _ hx => simp [(pushes_expr r _ hx).straight.plain,Instr.label?,Instr.target?]

theorem plain_forHead {first last : Expr} {step : Option Expr} {head : ForHead}
    (h : (forHead r name first last step line).Gives s head s') : head.code.Plain := by
  obtain ⟨found,x,y,cx,cy,stepCode,t,u,v,hc⟩ := forHead_cases h
  have hx := (pushes_expr r first hc.firstValue).straight.plain
  have hy := (pushes_expr r last hc.lastValue).straight.plain
  have hstep := plain_stepOf hc.stepValue
  simp [hc.code,hx,hy,hstep,Instr.label?,Instr.target?]

theorem plain_load (step : Step) : step.load.Plain := by
  cases step <;> simp [Step.load,Instr.label?,Instr.target?]

theorem plain_test (head : ForHead) :
    (head.step.test head.counter head.limit head.base).Plain :=
  (pushes_test head.counter head.limit head.base head.step).straight.plain

theorem labels_loop (head : ForHead) (again test : Label) (body : Code) (hh : head.code.Plain) :
    (head.loop again test body).labels = [again] ++ body.labels ++ [test] := by
  simp [ForHead.loop,hh.labels,(plain_test head).labels,(plain_load head.step).labels,Instr.label?]

theorem plain_allocateAll : ∀ (ds : List Declaration) {s : State} {code : Code} {s' : State},
    (allocateAll r ds).Gives s code s' → code.Plain
  | [], _, _, _, h => by
    rw [allocateAll] at h
    rw [(gives_pure.mp h).1]
    exact plain_nil
  | _ :: rest, _, _, _, h => by
    obtain ⟨first,t,more,hd,hm,rfl⟩ := gives_allocateAll_cons.mp h
    refine plain_append.mpr ⟨?_,plain_allocateAll rest hm⟩
    rcases gives_recover.mp hd with hd | ⟨_,_,_,_,rfl,_⟩
    · exact plain_allocateGlobal hd
    · exact plain_nil

theorem plain_epilogue (h : (epilogue r).Gives s code s') : code.Plain := by
  cases epilogue_cases h with
  | nothing => simp [Instr.label?,Instr.target?]
  | result => simp [Instr.label?,Instr.target?]
  | zero => cases r.returns <;> simp [Literal.zero,Instr.label?,Instr.target?]

end plain

/-- Whether the number was fresh between two states of the label counter, as a count. -/
def fresh (a b l : Nat) : Nat := if a ≤ l ∧ l < b then 1 else 0

theorem fresh_add {a b c : Nat} (hab : a ≤ b) (hbc : b ≤ c) (l : Nat) :
    fresh a b l + fresh b c l = fresh a c l := by
  unfold fresh
  split <;> split <;> split <;> omega

theorem fresh_mono {a b c d : Nat} (hab : a ≤ b) (hcd : c ≤ d) (l : Nat) :
    fresh b c l ≤ fresh a d l := by
  unfold fresh
  split <;> split <;> omega

theorem fresh_cons {a b : Nat} (h : a + 1 ≤ b) (l : Nat) :
    [a].count l + fresh (a + 1) b l = fresh a b l := by
  have hone : [a].count l = fresh a (a + 1) l := by
    by_cases hal : a = l
    · subst hal
      simp [fresh]
    · rw [List.count_singleton,fresh,if_neg (by simpa using hal),if_neg (by omega)]
  rw [hone]
  exact fresh_add (Nat.le_succ a) h l

theorem fresh_pair {a b : Nat} (h : a + 2 ≤ b) (l : Nat) :
    [a].count l + [a + 1].count l + fresh (a + 2) b l = fresh a b l := by
  have hfirst := fresh_cons (Nat.le_trans (Nat.le_succ _) h) l
  have hsecond : [a + 1].count l + fresh (a + 2) b l = fresh (a + 1) b l := fresh_cons h l
  omega

def Routine.named (r : Routine) (caseSensitive : Bool) (xs : List Stmt) (l : Label) : Nat :=
  ((labelNames xs).map fun x => r.labels.lookup (normalize caseSensitive x.2)).count (some l)

theorem named_append (r : Routine) (caseSensitive : Bool) (xs ys : List Stmt) (l : Label) :
    r.named caseSensitive (xs ++ ys) l = r.named caseSensitive xs l + r.named caseSensitive ys l := by
  simp [Routine.named,labelNames]

/-- The labels of the code are fresh ones or those of the statements. -/
def LabelsFrom (r : Routine) (caseSensitive : Bool) (xs : List Stmt) (x : Lower Code) : Prop :=
  ∀ (s : State) (code : Code) (s' : State), x.Gives s code s' → s.scopes.Uniform →
    s.scopes.caseSensitive = caseSensitive →
    ∀ l, code.labels.count l ≤ fresh s.nextLabel s'.nextLabel l + r.named caseSensitive xs l

section counting

variable {r : Routine} {caseSensitive : Bool} {xs : List Stmt}

theorem labelsFrom_of_nil {x : Lower Code}
    (h : ∀ {s : State} {code : Code} {s' : State}, x.Gives s code s' → code.labels = []) :
    LabelsFrom r caseSensitive xs x := by
  intro s code s' hx _ _ l
  rw [h hx]
  exact Nat.zero_le _

theorem labelsFrom_of_plain {x : Lower Code}
    (h : ∀ {s : State} {code : Code} {s' : State}, x.Gives s code s' → code.Plain) :
    LabelsFrom r caseSensitive xs x :=
  labelsFrom_of_nil fun hx => (h hx).labels

theorem LabelsFrom.recover {x : Lower Code} (h : LabelsFrom r caseSensitive xs x) :
    LabelsFrom r caseSensitive xs (recover x) := by
  intro s code s' hx hu hc l
  rcases gives_recover.mp hx with hx | ⟨_,_,_,_,rfl,_⟩
  · exact h s code s' hx hu hc l
  · exact Nat.zero_le _

theorem labelsFrom_label (line : Line) (name : String) :
    LabelsFrom r caseSensitive [.label line name] (stmt r (.label line name)) := by
  intro s code s' h hu hc l
  rw [stmt,gives_bind] at h
  obtain ⟨n,t,hn,h⟩ := h
  rw [(gives_pure.mp h).1]
  obtain ⟨found,hr,_,hlookup,_⟩ := gives_labelOf.mp hn
  have hkey := hu.key_of_resolve hr
  rw [hkey,ScopeStack.normalize,SymbolTable.normalize] at hlookup
  change r.labels.lookup (normalize s.scopes.caseSensitive name) = some n at hlookup
  rw [hc] at hlookup
  simp [Routine.named,labelNames,hlookup,Instr.label?,List.count_cons]

end counting

mutual

theorem labelsFrom_stmt (r : Routine) (caseSensitive : Bool) : ∀ (x : Stmt),
    LabelsFrom r caseSensitive x.flatten (stmt r x)
  | .declare _ _ => labelsFrom_of_plain fun h => plain_declaration (by rwa [stmt] at h)
  | .share _ names => labelsFrom_of_plain fun h => plain_shareAll names (by rwa [stmt] at h)
  | .assign .. => labelsFrom_of_plain fun h => plain_assign (by rwa [stmt] at h)
  | .call .. => labelsFrom_of_plain fun h => plain_callStmt (by rwa [stmt] at h)
  | .ifElse line cond yes no => by
    intro s code s' h hu hc l
    obtain ⟨test,t,yesCode,u,noCode,ht,hyes,hno,hcode⟩ := gives_ifElse.mp h
    have hst := changes_of_gives ht (stays_condition (r := r))
    have htu := changes_of_gives hyes (stays_stmts r yes _)
    have hus := changes_of_gives hno (stays_stmts r no _)
    have hyes' := labelsFrom_stmts r caseSensitive yes _ _ _ hyes (hst.uniform hu)
      (hst.caseSensitive.trans hc) l
    have hno' := labelsFrom_stmts r caseSensitive no _ _ _ hno (htu.uniform (hst.uniform hu))
      (htu.caseSensitive.trans (hst.caseSensitive.trans hc)) l
    have hnamed : r.named caseSensitive (Stmt.flatten (.ifElse line cond yes no)) l = _ :=
      named_append r caseSensitive (Stmt.flattenAll yes) (Stmt.flattenAll no) l
    have hbranches := fresh_add htu.nextLabel_le hus.nextLabel_le l
    have hle := Nat.le_trans htu.nextLabel_le hus.nextLabel_le
    have hmono := fresh_mono hst.nextLabel_le (Nat.le_refl s'.nextLabel) l
    rw [hnamed]
    cases hn : no.isEmpty with
    | true =>
      simp only [hn,if_true] at hcode hyes' hbranches hle
      have hdone := fresh_cons hle l
      have hlabels : code.labels = yesCode.labels ++ [t.nextLabel] := by
        simp [hcode,(plain_condition ht).labels,Instr.label?]
      rw [hlabels,List.count_append]
      omega
    | false =>
      simp only [hn,Bool.false_eq_true,if_false] at hcode hyes' hbranches hle
      have hpair := fresh_pair hle l
      have hlabels : code.labels =
          yesCode.labels ++ [t.nextLabel + 1] ++ noCode.labels ++ [t.nextLabel] := by
        simp [hcode,(plain_condition ht).labels,Instr.label?]
      rw [hlabels,List.count_append,List.count_append,List.count_append]
      omega
  | .whileDo _ cond body => by
    intro s code s' h hu hc l
    obtain ⟨bodyCode,t,test,hbody,ht,hcode⟩ := gives_whileDo.mp h
    have hst := changes_of_gives hbody (stays_stmts r body _)
    have hts := changes_of_gives ht (stays_condition (r := r))
    have hbody' : bodyCode.labels.count l ≤ fresh (s.nextLabel + 2) t.nextLabel l + _ :=
      labelsFrom_stmts r caseSensitive body _ _ _ hbody hu hc l
    have hpair := fresh_pair (Nat.le_trans hst.nextLabel_le hts.nextLabel_le) l
    have hmono := fresh_mono (Nat.le_refl (s.nextLabel + 2)) hts.nextLabel_le l
    have hlabels : code.labels = [s.nextLabel] ++ bodyCode.labels ++ [s.nextLabel + 1] := by
      simp [hcode,(plain_condition ht).labels,Instr.label?]
    change _ ≤ _ + r.named caseSensitive (Stmt.flattenAll body) l
    rw [hlabels,List.count_append,List.count_append]
    omega
  | .repeatUntil _ body cond => by
    intro s code s' h hu hc l
    obtain ⟨bodyCode,t,test,hbody,ht,hcode⟩ := gives_repeatUntil.mp h
    have hst := changes_of_gives hbody (stays_stmts r body _)
    have hts := changes_of_gives ht (stays_condition (r := r))
    have hbody' : bodyCode.labels.count l ≤ fresh (s.nextLabel + 1) t.nextLabel l + _ :=
      labelsFrom_stmts r caseSensitive body _ _ _ hbody hu hc l
    have hagain := fresh_cons (Nat.le_trans hst.nextLabel_le hts.nextLabel_le) l
    have hmono := fresh_mono (Nat.le_refl (s.nextLabel + 1)) hts.nextLabel_le l
    have hlabels : code.labels = [s.nextLabel] ++ bodyCode.labels := by
      simp [hcode,(plain_condition ht).labels,Instr.label?]
    change _ ≤ _ + r.named caseSensitive (Stmt.flattenAll body) l
    rw [hlabels,List.count_append]
    omega
  | .forTo line name first last step body => by
    intro s code s' h hu hc l
    obtain ⟨head,t,bodyCode,hh,hbody,rfl⟩ := gives_forTo.mp h
    have hst := changes_of_gives hh (stays_forHead (r := r))
    have hts := changes_of_gives hbody (stays_stmts r body _)
    have hbody' : bodyCode.labels.count l ≤ fresh (t.nextLabel + 2) s'.nextLabel l + _ :=
      labelsFrom_stmts r caseSensitive body _ _ _ hbody (hst.uniform hu)
        (hst.caseSensitive.trans hc) l
    have hpair := fresh_pair hts.nextLabel_le l
    have hmono := fresh_mono hst.nextLabel_le (Nat.le_refl s'.nextLabel) l
    change _ ≤ _ + r.named caseSensitive (Stmt.flattenAll body) l
    rw [labels_loop head _ _ _ (plain_forHead hh),List.count_append,List.count_append]
    omega
  | .label line name => labelsFrom_label line name
  | .goto .. => labelsFrom_of_nil fun h => by
    rw [stmt] at h
    simp only [gives_bind,gives_pure] at h
    obtain ⟨l,_,_,rfl,_⟩ := h
    rfl
  | .ret .. => labelsFrom_of_plain fun h => plain_ret (by rwa [stmt] at h)
  | .print _ values => labelsFrom_of_plain fun h => plain_printAll values (by rwa [stmt] at h)
  | .stop _ => labelsFrom_of_plain fun h => by
    rw [stmt] at h
    rw [(gives_pure.mp h).1]
    simp [Instr.label?,Instr.target?]

theorem labelsFrom_stmts (r : Routine) (caseSensitive : Bool) : ∀ (xs : List Stmt),
    LabelsFrom r caseSensitive (Stmt.flattenAll xs) (stmts r xs)
  | [] => labelsFrom_of_plain fun h => by
    rw [stmts] at h
    rw [(gives_pure.mp h).1]
    exact plain_nil
  | x :: rest => by
    intro s code s' h hu hc l
    obtain ⟨first,t,more,hx,hm,rfl⟩ := gives_stmts_cons.mp h
    have hst := changes_of_gives hx (stays_recover (stays_stmt r x s))
    have hts := changes_of_gives hm (stays_stmts r rest t)
    have hfirst := (labelsFrom_stmt r caseSensitive x).recover _ _ _ hx hu hc l
    have hmore := labelsFrom_stmts r caseSensitive rest _ _ _ hm (hst.uniform hu)
      (hst.caseSensitive.trans hc) l
    have hfresh := fresh_add hst.nextLabel_le hts.nextLabel_le l
    rw [Stmt.flattenAll,named_append,labels_append,List.count_append]
    omega

end

section bodies

variable {r : Routine} {caseSensitive : Bool} {xs : List Stmt}

theorem labelsFrom_mainBody (u : SourceUnit) :
    LabelsFrom r caseSensitive (Stmt.flattenAll u.main) (mainBody r u) := by
  intro s code s' h hu hc l
  simp only [mainBody,gives_bind,gives_pure] at h
  obtain ⟨arrays,t,ha,body,_,hb,rfl,rfl⟩ := h
  have hst := changes_of_gives ha (stays_allocateAll r u.globals s)
  have hbody := labelsFrom_stmts r caseSensitive u.main t body _ hb (hst.uniform hu)
    (hst.caseSensitive.trans hc) l
  have hmono := fresh_mono hst.nextLabel_le (Nat.le_refl s'.nextLabel) l
  rw [labels_append,(plain_allocateAll _ ha).labels]
  exact Nat.le_trans hbody (Nat.add_le_add_right hmono _)

theorem labelsFrom_bodyCode {step : Lower Code} (hstep : LabelsFrom r caseSensitive xs step) :
    LabelsFrom r caseSensitive xs (bodyCode r step) := by
  intro s code s' h hu hc l
  obtain ⟨body,t,hb,h⟩ := gives_bodyCode.mp h
  have hbody := hstep s body t hb hu hc l
  rcases h with ⟨_,rfl,rfl⟩ | ⟨_,more,hm,rfl⟩
  · exact hbody
  · have hts := changes_of_gives hm (stays_epilogue (r := r))
    have hmono := fresh_mono (Nat.le_refl s.nextLabel) hts.nextLabel_le l
    rw [labels_append,(plain_epilogue hm).labels,List.append_nil]
    exact Nat.le_trans hbody (Nat.add_le_add_right hmono _)

theorem lookup_of_nodup {α : Type} {entries : List (String × α)} (h : (entries.map Prod.fst).Nodup) :
    ∀ x ∈ entries, entries.lookup x.1 = some x.2 := by
  induction entries with
  | nil => simp
  | cons y rest ih =>
    rw [List.map_cons,List.nodup_cons] at h
    intro x hx
    rcases List.mem_cons.mp hx with rfl | hx
    · rw [List.lookup_cons,beq_self_eq_true]
    · have hne : x.1 ≠ y.1 := by
        intro he
        exact h.1 (he ▸ List.mem_map_of_mem hx)
      rw [List.lookup_cons,show (x.1 == y.1) = false by simpa using hne]
      exact ih h.2 x hx

/-- The labels of the routine are those of the label statements, each under its key, with different
keys and with numbers from the first one on. -/
structure Routine.Numbers (r : Routine) (caseSensitive : Bool) (xs : List Stmt) (first : Nat) :
    Prop where
  keys : r.labels.map Prod.fst = (labelNames xs).map fun x => normalize caseSensitive x.2
  distinct : (r.labels.map Prod.fst).Nodup
  numbers : r.labels.map Prod.snd = List.range' first (labelNames xs).length

theorem Routine.Numbers.named {first : Nat} (h : r.Numbers caseSensitive xs first) (l : Label) :
    r.named caseSensitive xs l = (List.range' first (labelNames xs).length).count l := by
  have hlookup : r.labels.map (fun x => r.labels.lookup x.1) = r.labels.map fun x => some x.2 :=
    List.map_congr_left (lookup_of_nodup h.distinct)
  rw [Routine.named,← h.numbers]
  calc ((labelNames xs).map fun x => r.labels.lookup (normalize caseSensitive x.2)).count (some l) =
        ((r.labels.map Prod.fst).map fun k => r.labels.lookup k).count (some l) := by
          rw [h.keys,List.map_map]
          rfl
    _ = ((r.labels.map Prod.snd).map some).count (some l) := by
          rw [List.map_map,List.map_map]
          exact congrArg (List.count (some l)) hlookup
    _ = (r.labels.map Prod.snd).count l :=
          List.count_map_of_injective _ some (fun _ _ => Option.some.inj) l

section numbering

variable {step : Lower Code} {s s' : State} {code : Code} {first : Nat}

theorem LabelsFrom.nodup (hstep : LabelsFrom r s.scopes.caseSensitive xs step)
    (h : step.Gives s code s') (hu : s.scopes.Uniform)
    (hr : r.Numbers s.scopes.caseSensitive xs first)
    (hbelow : first + (labelNames xs).length ≤ s.nextLabel) : code.labels.Nodup := by
  rw [List.nodup_iff_count_le_one]
  intro l
  have hcount := hstep s code s' h hu rfl l
  rw [hr.named] at hcount
  rcases Nat.lt_or_ge l s.nextLabel with hl | hl
  · have hfresh : fresh s.nextLabel s'.nextLabel l = 0 := if_neg (by omega)
    have hone := List.nodup_iff_count_le_one.mp
      (List.nodup_range' (s := first) (n := (labelNames xs).length)) l
    omega
  · have hzero : (List.range' first (labelNames xs).length).count l = 0 := by
      rw [List.count_eq_zero]
      intro hmem
      have := List.mem_range'_1.mp hmem
      omega
    have hone : fresh s.nextLabel s'.nextLabel l ≤ 1 := by
      unfold fresh
      split <;> omega
    omega

/-- The labels of a body have numbers that were given out for it. -/
theorem LabelsFrom.mem_range (hstep : LabelsFrom r s.scopes.caseSensitive xs step)
    (h : step.Gives s code s') (hu : s.scopes.Uniform)
    (hr : r.Numbers s.scopes.caseSensitive xs first)
    (hbelow : first + (labelNames xs).length ≤ s.nextLabel) (hgrows : s.nextLabel ≤ s'.nextLabel) :
    ∀ l ∈ code.labels, first ≤ l ∧ l < s'.nextLabel := by
  intro l hl
  have hcount := hstep s code s' h hu rfl l
  rw [hr.named] at hcount
  have hpos : 0 < code.labels.count l := List.count_pos_iff.mpr hl
  by_cases hmem : l ∈ List.range' first (labelNames xs).length
  · obtain ⟨hfirst,hlast⟩ := List.mem_range'_1.mp hmem
    exact ⟨hfirst,Nat.lt_of_lt_of_le (Nat.lt_of_lt_of_le hlast hbelow) hgrows⟩
  · rw [List.count_eq_zero.mpr hmem] at hcount
    by_cases hrange : s.nextLabel ≤ l ∧ l < s'.nextLabel
    · have hfirst : first ≤ s.nextLabel := by omega
      exact ⟨Nat.le_trans hfirst hrange.1,hrange.2⟩
    · have hfresh : fresh s.nextLabel s'.nextLabel l = 0 := if_neg hrange
      omega

end numbering

end bodies

end Lowering
end StackCompiler
