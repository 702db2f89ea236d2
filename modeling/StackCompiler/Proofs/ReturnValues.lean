import StackCompiler.Proofs.Heights
import StackCompiler.Proofs.TypeSoundness

/-! Functions return values of their types.
A value comes from a return statement, from the slot of the result, or is the zero of the type. That fails
for functions that return labels, which have no zero, and where the name of the result is taken. -/
namespace StackCompiler

/-- A typed instruction other than a return changes the height of the stack by its effect. -/
theorem Instr.Types.length_after {Γ : Context} {i : Instr} {st st' : List Ty} (h : i.Types Γ st st')
    (hi : ∀ value, i ≠ .ret value) : st'.length = i.height st.length := by
  cases h with
  | ret => exact absurd rfl (hi _)
  | @call target params args t _ ha =>
    have hlength := ha.length_eq
    cases hv : t.isVoid <;> simp [height,pops,pushes,hlength]
  | _ => simp [height,pops,pushes]

/-- Stacks that agree along all edges have the heights that paths lead to. -/
theorem Code.length_of_reaches {Γ : Context} {code : Code} {before : Nat → List Ty}
    (hstart : before 0 = []) (htyped : ∀ pc i, code[pc]? = some i →
      ∃ after, i.Types Γ (before pc) after ∧ ∀ next, code.Flows pc next → before next = after)
    {pc n : Nat} (h : code.Reaches Instr.height 0 pc n) : (before pc).length = n := by
  have hstep : ∀ {pc next n : Nat} {i : Instr}, code[pc]? = some i → (∀ value, i ≠ .ret value) →
      code.Flows pc next → (before pc).length = n → (before next).length = i.height n := by
    rintro pc next _ i hi hret hflows rfl
    obtain ⟨after,htypes,hafter⟩ := htyped pc i hi
    rw [hafter next hflows]
    exact htypes.length_after hret
  induction h with
  | entry => rw [hstart]; rfl
  | next _ hi hflow ih =>
    refine hstep hi ?_ (.next hi hflow) ih
    rintro value rfl
    cases hflow
  | jump _ hi ht hn ih =>
    refine hstep hi ?_ (.jump hi ht hn) ih
    rintro value rfl
    cases ht

namespace Lowering

theorem Prepared.names_param {language : Language} {entry : String} {x : StackCompiler.Routine}
    {p : Progress} (b : Prepared language entry x p) {s : State} (hs : b.start.Changes b.routine s)
    {n : Slot} {info : SlotInfo} (hlt : n < x.params.length) (hinfo : s.frame[n]? = some info) :
    ∃ y ∈ x.params, info.names = [normalize b.start.scopes.caseSensitive y.name] := by
  have hparam : (paramFrame b.scopes.current [] x.params)[n]? = some info := by
    obtain ⟨more,hmore⟩ := hs.frame.slots
    rw [← hmore,List.getElem?_append_left] at hinfo
    · exact hinfo
    · exact Nat.lt_of_lt_of_eq hlt (length_paramFrame _ _).symm
  have hmap := congrArg (fun names => names[n]?)
    (map_paramFrame b.scopes.current (f := SlotInfo.names) (fun _ _ => rfl) [] x.params)
  simp only [List.getElem?_map,hparam,List.map_nil,List.nil_append,Option.map_some] at hmap
  obtain ⟨y,hy,hkey⟩ := Option.map_eq_some_iff.mp hmap.symm
  refine ⟨y,List.mem_of_getElem? hy,?_⟩
  rw [← hkey,← b.rule_current]
  rfl

/-- The slot by this name holds the result: it has the type of the result and belongs to no parameter and
to no variable declared in the routine. -/
structure ResultSlot (x : StackCompiler.Routine) (caseSensitive : Bool) (rc : RoutineCode) (n : Slot) :
    Prop where
  type : rc.frame.type? n = some (.scalar rc.returns)
  params : rc.params ≤ n
  locals : ∀ line d, Stmt.declare line d ∈ Stmt.flattenAll x.body → d.cls = .variable →
    rc.frame.slot? (normalize caseSensitive d.name) ≠ some n

section result

variable {u : SourceUnit} {caseSensitive : Bool} {final : List RoutineCode} {ground : ScopeStack}
  {body : Evaluation.Body} {rc : RoutineCode}

theorem Finished.resultSlot (h : Finished u.language final ground u.routines body rc)
    (hground : Grounded u caseSensitive ground) (hu : u.language = .fortran)
    (hvoid : body.routine.returns ≠ .void) (hname : body.routine.NamesApart caseSensitive) {n : Slot}
    (hn : rc.frame.slot? (normalize caseSensitive body.routine.name) = some n) :
    ResultSlot body.routine caseSensitive rc n := by
  obtain @⟨entry,p,b,code,s,_,_,hstart,hbody,_⟩ := h
  have hcase := b.rule_ground hground hstart
  have halters := b.alters hbody
  have hfree := b.free halters fun _ _ => by rwa [hcase]
  have hhoused := b.housed_start.changes (State.Alters.changes halters) hfree
  have hresult : b.routine.resultName = some (normalize caseSensitive body.routine.name) := by
    rw [← hcase,show b.start.scopes.caseSensitive = b.scopes.caseSensitive from
      ScopeStack.caseSensitive_add _ _,← ScopeStack.normalize_eq]
    exact if_pos ⟨hu,hvoid⟩
  obtain ⟨info,hinfo,hnames⟩ := Frame.getElem?_of_slot? hhoused.indexed hn
  refine ⟨?_,?_,fun line d hd hcls hslot => ?_⟩
  · rcases hhoused.named hn with ⟨y,hy,hkey,_⟩ | ⟨_,htype⟩
    · exact absurd (hkey ▸ hresult) (hfree y hy)
    · exact htype
  · refine Nat.le_of_not_lt fun (hlt : n < body.routine.params.length) => ?_
    obtain ⟨y,hy,hnames'⟩ := b.names_param (State.Alters.changes halters) hlt hinfo
    rw [hcase] at hnames'
    exact hname.params y hy (List.singleton_inj.mp (hnames'.symm.trans hnames))
  · obtain ⟨other,hother,hnames'⟩ := Frame.getElem?_of_slot? hhoused.indexed hslot
    obtain rfl := Option.some.inj (hinfo.symm.trans hother)
    exact hname.locals line d hd hcls (List.singleton_inj.mp (hnames'.symm.trans hnames))

theorem returns_of_finished {language : Language} {tops : List StackCompiler.Routine}
    {bs : List Evaluation.Body} {rest : List RoutineCode}
    (h : List.Forall₂ (Finished language final ground tops) bs rest) :
    rest.map RoutineCode.returns = (bs.map Evaluation.Body.routine).map StackCompiler.Routine.returns := by
  induction h with
  | nil => rfl
  | @cons body rc bs rest hf _ ih =>
    have hreturns : rc.returns = body.routine.returns := by
      obtain ⟨b⟩ := hf
      rfl
    rw [List.map_cons,List.map_cons,List.map_cons,hreturns,ih]

theorem FinishedMain.returns_eq (h : FinishedMain u caseSensitive final ground rc) :
    rc.returns = .void := by
  obtain ⟨b⟩ := h
  rfl

end result

/-- The stacks with which a function of the type returns. -/
def Delivered (returns : BaseType) (value : Bool) (st : List Ty) : Prop :=
  value = true → st = [.scalar returns]

/-- Functions return values of their types: where a function has a type with values and its name is not
that of a parameter or variable of its own, every return of a value finds exactly one, a scalar of the
type. The routines of a module are the main program and those of the unit in order. -/
theorem returns_typed {u : SourceUnit} {caseSensitive : Bool} {m : Module}
    (h : (run u caseSensitive).2 = .ok m) :
    m.routines.map RoutineCode.returns =
      .void :: (Routine.preorderAll u.routines).map StackCompiler.Routine.returns ∧
    ∀ i x rc, (Routine.preorderAll u.routines)[i]? = some x → m.routines[i + 1]? = some rc →
      x.returns ≠ .void → (u.language = .comal → x.returns ≠ .label) →
      (u.language = .fortran → x.NamesApart caseSensitive) →
      (∃ before : Nat → List Ty, before 0 = [] ∧
        (∀ pc i, rc.code[pc]? = some i →
          ∃ after, i.Types (m.context rc (Delivered x.returns)) (before pc) after ∧
            ∀ next, rc.code.Flows pc next → before next = after) ∧
        ∀ pc, rc.code[pc]? = some (.ret true) → before pc = [.scalar x.returns] ∧
          ∀ n, rc.code.Reaches Instr.height 0 pc n → n = 1) ∧
      (u.language = .fortran → ∀ n, rc.frame.slot? (normalize caseSensitive x.name) = some n →
        ResultSlot x caseSensitive rc n) := by
  obtain ⟨ground,main,rest,ha⟩ := assembled_of_run h
  refine ⟨?_,fun i x rc hx hrc hvoid hlabel hname => ?_⟩
  · rw [ha.routines,List.map_cons,ha.mainProgram.returns_eq,returns_of_finished ha.others,
      Evaluation.routine_subprograms]
  rw [← Evaluation.routine_subprograms u caseSensitive,List.getElem?_map,
    Option.map_eq_some_iff] at hx
  obtain ⟨body,hbody,rfl⟩ := hx
  have hfinished : Finished u.language m.routines ground u.routines body rc := by
    rw [ha.routines,List.getElem?_cons_succ] at hrc
    exact rel_of_getElem? ha.others hbody hrc
  have htypes : rc.code.Types (contextOf u.language m.routines (globals ground.global)
      (fun n t => rc.frame.type? n = some t) (Delivered body.routine.returns)) [] [] :=
    hfinished.typed ha.grounded hname nofun (fun _ _ => rfl) fun hu hl => absurd hl (hlabel hu)
  obtain ⟨before,hstart,htyped⟩ := (htypes.mono (ha.within rc _)).exists_flows
  refine ⟨⟨before,hstart,htyped,fun pc hpc => ?_⟩,fun hu n hn =>
    hfinished.resultSlot ha.grounded hu hvoid (hname hu) hn⟩
  have hone : before pc = [.scalar body.routine.returns] := by
    obtain ⟨after,hret,_⟩ := htyped pc _ hpc
    cases hret with
    | ret hd => exact hd rfl
  refine ⟨hone,fun n hn => ?_⟩
  rw [← Code.length_of_reaches hstart htyped hn,hone]
  rfl

/-- A function that assigns its result. -/
def square : StackCompiler.Routine :=
  { name := "SQ"
    params := [{ name := "X", base := .double }]
    returns := .double
    body := [.assign 1 { name := "SQ" } (.binary 1 (.ident 1 "X") .mul (.ident 1 "X"))] }

theorem returns_typed_square :
    ∃ m rc, (run { name := "P", language := .fortran, routines := [square] } false).2 = .ok m ∧
      m.routines[1]? = some rc ∧
      rc.code = [.load (.slot 0),.load (.slot 0),.binary .mul .double,.store (.slot 1),
        .load (.slot 1),.ret true] ∧
      (∃ before : Nat → List Ty, before 0 = [] ∧ before 5 = [.scalar .double]) ∧
      ResultSlot square false rc 1 := by
  have hview : ((run { name := "P", language := .fortran, routines := [square] } false).2.toOption.bind
      fun m => m.routines[1]?.map fun rc => (rc.code,rc.frame.slot? "SQ")) =
      some ([.load (.slot 0),.load (.slot 0),.binary .mul .double,.store (.slot 1),
        .load (.slot 1),.ret true],some 1) := by
    decide +kernel
  obtain ⟨m,rc,hrun,hrc,hview⟩ := exists_of_routine hview
  obtain ⟨hcode,hslot⟩ := Prod.mk.inj hview
  have hapart : square.NamesApart false := by
    refine ⟨by decide +kernel,fun line d hd => ?_⟩
    simp [square,Stmt.flattenAll,Stmt.flatten] at hd
  obtain ⟨⟨before,hstart,_,hret⟩,hresult⟩ :=
    (returns_typed hrun).2 0 square rc rfl hrc nofun nofun fun _ => hapart
  have hname : normalize false square.name = "SQ" := by decide +kernel
  refine ⟨m,rc,hrun,hrc,hcode,⟨before,hstart,(hret 5 ?_).1⟩,hresult rfl 1 ?_⟩
  · rw [hcode]
    rfl
  · rw [hname]
    exact hslot

/-- A function that has a parameter of its own name. -/
def ownName : SourceUnit :=
  { name := "P"
    language := .fortran
    routines := [
      { name := "F", params := [{ name := "F", base := .double }], returns := .integer, body := [] }] }

/-- A function that returns a label. -/
def labelValued : SourceUnit :=
  { name := "P", language := .comal, routines := [{ name := "F", returns := .label, body := [] }] }

/-- Where a parameter has the name of its function, the function returns the parameter, whatever its type
is; and a function that returns a label returns nothing. -/
theorem returns_wrong :
    (∃ m rc, (run ownName false).2 = .ok m ∧ m.routines[1]? = some rc ∧ rc.returns = .integer ∧
      rc.params = 1 ∧ rc.frame.type? 0 = some (.scalar .double) ∧
      rc.code = [.load (.slot 0),.ret true]) ∧
    ∃ m rc, (run labelValued true).2 = .ok m ∧ m.routines[1]? = some rc ∧ rc.returns = .label ∧
      rc.code = [.ret true] := by
  have hown : ((run ownName false).2.toOption.bind fun m => m.routines[1]?.map fun rc =>
      (rc.returns,rc.params,rc.frame.type? 0,rc.code)) =
      some (.integer,1,some (.scalar .double),[.load (.slot 0),.ret true]) := by
    decide +kernel
  have hlabel : ((run labelValued true).2.toOption.bind fun m => m.routines[1]?.map fun rc =>
      (rc.returns,rc.code)) = some (.label,[.ret true]) := by
    decide +kernel
  obtain ⟨m,rc,hrun,hrc,hview⟩ := exists_of_routine hown
  obtain ⟨m',rc',hrun',hrc',hview'⟩ := exists_of_routine hlabel
  simp only [Prod.mk.injEq] at hview hview'
  exact ⟨⟨m,rc,hrun,hrc,hview⟩,m',rc',hrun',hrc',hview'⟩

end Lowering
end StackCompiler
