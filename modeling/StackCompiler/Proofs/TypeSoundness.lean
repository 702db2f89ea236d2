import StackCompiler.Proofs.CallLinks
import StackCompiler.Proofs.TypedRoutines

/-! Operands have the types that instructions name.
Along every edge of the control flow the stacks of operand types agree, and every instruction is typed
by the slots of its routine, the variables of the module and the routines behind its entry names. -/
namespace StackCompiler

inductive Code.Flows (code : Code) : Nat → Nat → Prop
  | next {pc : Nat} {i : Instr} (hi : code[pc]? = some i) (hflow : i.endsFlow = false) :
    Flows code pc (pc + 1)
  | jump {pc n : Nat} {i : Instr} {l : Label} (hi : code[pc]? = some i) (ht : i.target? = some l)
    (hn : code[n]? = some (.label l)) : Flows code pc n

/-- What the code of a routine refers to: slots of its frame, variables of the module, and routines by
their entry names. -/
def Module.context (m : Module) (rc : RoutineCode) (returns : Bool → List Ty → Prop) : Context where
  language := m.language
  place
    | .slot n, t => rc.frame.type? n = some t
    | .global name, t => m.globals.lookup name = some t
  routine entry params t := ∃ i callee, m.entryPoints.lookup entry = some i ∧
    m.routines[i]? = some callee ∧ callee.paramTypes = params ∧ t = .scalar callee.returns
  returns

/-- The second context knows all that the first one knows. -/
structure Context.Within (Γ Δ : Context) : Prop where
  language : Γ.language = Δ.language
  place : ∀ {p : Place} {t : Ty}, Γ.place p t → Δ.place p t
  routine : ∀ {entry : String} {params : List Ty} {t : Ty}, Γ.routine entry params t →
    Δ.routine entry params t
  returns : ∀ {value : Bool} {st : List Ty}, Γ.returns value st → Δ.returns value st

section within

variable {Γ Δ : Context}

theorem Context.Within.call (h : Γ.Within Δ) {target : CallTarget} {params : List Ty} {t : Ty}
    (hc : Γ.call target params t) : Δ.call target params t := by
  cases target with
  | routine entry => exact h.routine hc
  | runtime name =>
    change Runtime Δ.language name params t
    rw [← h.language]
    exact hc

theorem Instr.Types.mono (h : Γ.Within Δ) {i : Instr} {st st' : List Ty} (hi : i.Types Γ st st') :
    i.Types Δ st st' := by
  cases hi with
  | load hp => exact .load (h.place hp) _
  | store hp hs => exact .store (h.place hp) hs _
  | loadElement hp => exact .loadElement (h.place hp) _
  | storeElement hp => exact .storeElement (h.place hp) _
  | checkBounds hp hd => exact .checkBounds (h.place hp) hd _
  | alloc hp => exact .alloc (h.place hp) _
  | call hc ha => exact .call (h.call hc) ha _
  | ret hr => exact .ret (h.returns hr)
  | const | binary | unary | convert | dup | pop | label | branch | branchIf => constructor

theorem Code.Types.mono (h : Γ.Within Δ) {code : Code} {st st' : List Ty}
    (hc : code.Types Γ st st') : code.Types Δ st st' := by
  induction hc with
  | nil st => exact .nil st
  | cons hi _ ih => exact .cons (hi.mono h) ih

theorem Instr.Types.nil_of_target {i : Instr} {st st' : List Ty} {l : Label} (h : i.Types Γ st st')
    (ht : i.target? = some l) : st' = [] := by
  cases h <;> first | rfl | cases ht

theorem Instr.Types.nil_of_label {l : Label} {st st' : List Ty} (h : (Instr.label l).Types Γ st st') :
    st = [] := by
  cases h
  rfl

/-- The stacks along the code agree along all edges, since they are empty wherever branches meet. -/
theorem Code.Types.exists_flows {code : Code} {st st' : List Ty} (h : code.Types Γ st st') :
    ∃ before : Nat → List Ty, before 0 = st ∧ ∀ pc i, code[pc]? = some i →
      ∃ after, i.Types Γ (before pc) after ∧ ∀ next, code.Flows pc next → before next = after := by
  obtain ⟨before,hstart,hnext⟩ := h.exists_before
  refine ⟨before,hstart,fun pc i hi => ⟨before (pc + 1),hnext pc i hi,fun next hflows => ?_⟩⟩
  cases hflows with
  | next => rfl
  | jump hj ht hn =>
    obtain rfl := Option.some.inj (hi.symm.trans hj)
    rw [(hnext next _ hn).nil_of_label,(hnext pc i hi).nil_of_target ht]

end within

namespace Lowering

variable {u : SourceUnit} {caseSensitive : Bool} {m : Module} {ground : ScopeStack}
  {main : RoutineCode} {rest : List RoutineCode}

/-- What is known of the outermost scope and the routines while a unit is put into code, the module
keeps. -/
theorem Assembled.within (h : Assembled u caseSensitive m ground main rest) (rc : RoutineCode)
    (returns : Bool → List Ty → Prop) :
    (contextOf u.language m.routines (Lowering.globals ground.global)
      (fun n t => rc.frame.type? n = some t) returns).Within (m.context rc returns) where
  language := h.language.symm
  place {p t} hp := by
    cases p with
    | slot n => exact hp
    | global name =>
      change m.globals.lookup name = some t
      rw [h.globals]
      exact lookup_of_nodup (nodup_globals h.grounded.distinct) (name,t) hp
  routine {entry params t} hl := by
    obtain ⟨callee,hmem,rfl,rfl,rfl⟩ := hl
    obtain ⟨i,hi⟩ := List.getElem?_of_mem hmem
    refine ⟨i,callee,?_,hi,rfl,rfl⟩
    rw [h.entryPoints]
    exact (lookup_entryPoints h.names).mpr ⟨callee,hi,rfl⟩
  returns := id

/-- Type soundness: the operands of every instruction of a Comal routine have the types that it names,
by one assignment of stacks that agrees along every edge. -/
theorem operands_typed {u : SourceUnit} (hu : u.language = .comal) {caseSensitive : Bool} {m : Module}
    (h : (run u caseSensitive).2 = .ok m) {rc : RoutineCode} (hrc : rc ∈ m.routines) :
    ∃ before : Nat → List Ty, before 0 = [] ∧ ∀ pc i, rc.code[pc]? = some i →
      ∃ after, i.Types (m.context rc fun _ _ => True) (before pc) after ∧
        ∀ next, rc.code.Flows pc next → before next = after := by
  obtain ⟨ground,main,rest,ha⟩ := assembled_of_run h
  have htypes : rc.code.Types (contextOf u.language m.routines (globals ground.global)
      (fun n t => rc.frame.type? n = some t) fun _ _ => True) [] [] := by
    rw [ha.routines] at hrc
    rcases List.mem_cons.mp hrc with rfl | hrc
    · exact ha.mainProgram.typed ha.grounded trivial
    · obtain ⟨_,_,hfinished⟩ := exists_of_mem_right ha.others hrc
      refine hfinished.typed ha.grounded (fun hf => ?_) (fun _ => trivial) (fun _ => trivial)
        fun _ _ => trivial
      cases hu.symm.trans hf
  exact (htypes.mono (ha.within rc _)).exists_flows

/-- Before the call in `nestedRoutines` that passes an integer for a double, a double is on the
stack. -/
theorem operands_typed_nestedRoutines :
    ∃ m rc pc, ∃ before : Nat → List Ty, ∃ st after, (run nestedRoutines true).2 = .ok m ∧
      rc ∈ m.routines ∧ rc.code[pc]? = some .convert ∧
      rc.code[pc + 1]? = some (.call (.routine "SUM.SHOW") 1 false) ∧ before 0 = [] ∧
      before pc = .scalar .integer :: st ∧ before (pc + 1) = .scalar .double :: st ∧
      (Instr.call (.routine "SUM.SHOW") 1 false).Types (m.context rc fun _ _ => True)
        (before (pc + 1)) after := by
  have hview : ((run nestedRoutines true).2.toOption.bind fun m => m.routines[1]?.map fun rc =>
      (rc.code[3]?,rc.code[4]?)) =
      some (some .convert,some (.call (.routine "SUM.SHOW") 1 false)) := by
    decide +kernel
  obtain ⟨m,rc,hrun,hrc,hview⟩ := exists_of_routine hview
  obtain ⟨hthree,hfour⟩ := Prod.mk.inj hview
  have hmem := List.mem_of_getElem? hrc
  obtain ⟨before,hstart,htyped⟩ := operands_typed rfl hrun hmem
  obtain ⟨_,hconvert,hnext⟩ := htyped 3 _ hthree
  obtain ⟨after,hcall,_⟩ := htyped 4 _ hfour
  have hflow := hnext 4 (.next hthree rfl)
  generalize hst : before 3 = st at hconvert
  cases hconvert with
  | convert st => exact ⟨m,rc,3,before,st,after,hrun,hmem,hthree,hfour,hstart,hst,hflow,hcall⟩

end Lowering
end StackCompiler
