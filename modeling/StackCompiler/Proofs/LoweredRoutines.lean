import StackCompiler.Proofs.Contexts

/-! What the code of every routine keeps to: the discipline of the stack, a frame numbered from zero
that has all the slots referred to, and no label twice. -/
namespace StackCompiler

def Place.Within (p : Place) (n : Nat) : Prop := ∀ m, p.slot? = some m → m < n

def Instr.Within (i : Instr) (n : Nat) : Prop := ∀ p, i.place? = some p → p.Within n

/-- The code refers only to the first slots. -/
def Code.Within (code : Code) (n : Nat) : Prop := ∀ i ∈ code, i.Within n

instance (p : Place) (n : Nat) : Decidable (p.Within n) :=
  inferInstanceAs (Decidable (∀ m ∈ p.slot?, m < n))

instance (i : Instr) (n : Nat) : Decidable (i.Within n) :=
  inferInstanceAs (Decidable (∀ p ∈ i.place?, p.Within n))

instance (code : Code) (n : Nat) : Decidable (code.Within n) :=
  inferInstanceAs (Decidable (∀ i ∈ code, i.Within n))

namespace Lowering

open Lower Code

/-- What a routine may refer to: the routines of the module, the variables of the outermost scope and
the slots of its frame, whatever they hold. -/
def looseContext (language : Language) (final : List RoutineCode) (outer : List (String × Ty))
    (size : Nat) : Context :=
  contextOf language final outer (fun n _ => n < size) fun _ _ => True

theorem returning_loose {language : Language} {final : List RoutineCode} {outer : List (String × Ty)}
    {size : Nat} (r : Routine) : Returning (looseContext language final outer size) r :=
  ⟨fun _ => trivial,fun _ => trivial,fun _ _ _ => trivial⟩

/-- Code that is typed in a loose context refers only to the slots of the frame. -/
theorem within_of_types {language : Language} {final : List RoutineCode}
    {outer : List (String × Ty)} {size : Nat} {code : Code} {st st' : List Ty}
    (h : code.Types (looseContext language final outer size) st st') : code.Within size := by
  intro i hi p hp n hn
  obtain ⟨_,_,htypes⟩ := h.of_mem hi
  obtain ⟨t,ht⟩ := htypes.place hp
  cases p with
  | slot m =>
    obtain rfl := Option.some.inj hn
    exact ht
  | global => cases hn

/-- Every slot that the lowering comes across is one of the frame it leaves. -/
theorem Found.slot_lt {r : Routine} {D : Declaration → Prop} {s s' : State} {n : Slot} {type : Ty}
    (h : Found r D s (.slot n) type s') (hs : s.frame.Indexed) : n < s'.frame.length := by
  generalize hp : Place.slot n = p at h
  cases h with
  | stored _ _ hplace =>
    rcases gives_place.mp hplace with ⟨_,rfl,_⟩ | ⟨_,_,rfl,rfl⟩
    · cases hp
    · cases hp
      exact Frame.localVar_lt hs _ _
  | array | result | resultRead =>
    cases hp
    exact Frame.localVar_lt hs _ _
  | room => cases hp
  | temp t =>
    cases hp
    exact Nat.lt_of_lt_of_eq (Nat.lt_succ_self _) (Frame.length_push _ _ _ _).symm

theorem slots_loose {r : Routine} {D : Declaration → Prop} {s s' : State}
    (hs : s.frame.Indexed) : Slots (fun n _ => n < s'.frame.length) r D s s' := by
  intro t t' n type hbefore hf hafter
  have hindexed := (State.Changes.frame hbefore).indexed hs
  exact Nat.lt_of_lt_of_le (hf.slot_lt hindexed) (State.Changes.frame hafter).length_le

section finished

variable {u : SourceUnit} {caseSensitive : Bool} {language : Language} {final : List RoutineCode}
  {ground : ScopeStack} {tops : List StackCompiler.Routine} {body : Evaluation.Body}
  {rc : RoutineCode}

theorem Finished.loose (h : Finished language final ground tops body rc)
    (hground : Grounded u caseSensitive ground) :
    rc.code.Types (looseContext language final (globals ground.global) rc.frame.length) [] [] := by
  obtain ⟨b,_,_,hstart,hbody,_⟩ := h
  exact b.types hground hstart hbody (slots_loose (indexed_paramFrame _ _ _ Frame.indexed_nil))
    (returning_loose _)

theorem FinishedMain.loose (h : FinishedMain u caseSensitive final ground rc)
    (hground : Grounded u caseSensitive ground) :
    rc.code.Types (looseContext u.language final (globals ground.global) rc.frame.length) [] [] := by
  obtain ⟨b,_,_,_,_,hstart,hdepth,hbody,_⟩ := h
  exact b.types hground hstart hdepth hbody (slots_loose Frame.indexed_nil) (returning_loose _)

end finished

theorem disciplined_mainBody {r : Routine} {u : SourceUnit} {s s' : State} {code : Code}
    (h : (mainBody r u).Gives s code s') : code.Disciplined := by
  simp only [mainBody,gives_bind,gives_pure] at h
  obtain ⟨arrays,t,ha,body,_,hb,rfl,rfl⟩ := h
  exact (disciplined_allocateAll u.globals ha).append (disciplined_stmts r u.main hb)

end Lowering

/-- What the code of every routine of a module keeps to. -/
structure RoutineCode.Lowered (rc : RoutineCode) : Prop where
  disciplined : rc.code.Disciplined
  indexed : rc.frame.Indexed
  within : rc.code.Within rc.frame.length
  params : rc.params ≤ rc.frame.length
  labels : rc.code.labels.Nodup

namespace Lowering

open Lower Code

section lowered

variable {u : SourceUnit} {caseSensitive : Bool} {language : Language} {final : List RoutineCode}
  {ground : ScopeStack} {tops : List StackCompiler.Routine} {body : Evaluation.Body}
  {rc : RoutineCode}

theorem Finished.lowered (h : Finished language final ground tops body rc)
    (hground : Grounded u caseSensitive ground) : rc.Lowered := by
  have hwithin := within_of_types (h.loose hground)
  obtain ⟨b,_,_,hstart,hbody,_⟩ := h
  have hframe := (changes_of_gives hbody (stays_bodyCode (stays_stmts _ _ _))).frame
  have hlength : b.start.frame.length = body.routine.params.length :=
    length_paramFrame b.scopes.current body.routine.params
  refine ⟨disciplined_bodyCode hbody (disciplined_stmts b.routine body.routine.body),
    hframe.indexed (indexed_paramFrame _ _ _ Frame.indexed_nil),hwithin,
    Nat.le_trans (Nat.le_of_eq hlength.symm) hframe.length_le,?_⟩
  exact (labelsFrom_bodyCode (labelsFrom_stmts b.routine _ body.routine.body)).nodup hbody hstart.uniform
    b.numbers_start (Nat.le_refl _)

theorem FinishedMain.lowered (h : FinishedMain u caseSensitive final ground rc)
    (hground : Grounded u caseSensitive ground) : rc.Lowered := by
  have hwithin := within_of_types (h.loose hground)
  obtain ⟨b,_,_,hrule,_,hstart,_,hbody,_⟩ := h
  have hframe := (changes_of_gives hbody (stays_bodyCode (stays_mainBody _ u _))).frame
  refine ⟨disciplined_bodyCode hbody disciplined_mainBody,hframe.indexed Frame.indexed_nil,hwithin,
    Nat.zero_le _,?_⟩
  exact (labelsFrom_bodyCode (labelsFrom_mainBody u)).nodup hbody hstart.uniform
    (b.numbers_start hrule) (Nat.le_refl _)

theorem lowered_of_run {m : Module} (h : (run u caseSensitive).2 = .ok m) :
    ∀ rc ∈ m.routines, rc.Lowered := by
  obtain ⟨ground,main,rest,ha⟩ := assembled_of_run h
  intro rc hrc
  rw [ha.routines] at hrc
  rcases List.mem_cons.mp hrc with rfl | hrc
  · exact ha.mainProgram.lowered ha.grounded
  · obtain ⟨_,_,hfinished⟩ := exists_of_mem_right ha.others hrc
    exact hfinished.lowered ha.grounded

end lowered

end Lowering
end StackCompiler
