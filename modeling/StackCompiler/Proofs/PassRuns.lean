import StackCompiler.Proofs.MeaningKept
import StackCompiler.Proofs.References
import StackCompiler.Proofs.SharedSlots
import StackCompiler.Proofs.WatchedRuns

/-! What single passes keep of a run.
A routine with shared slots goes through the same positions with the same stack; only the numbers of
its slots differ. Code with windows replaced takes other steps and fewer of them, so of its run only
what shows is the same. -/
namespace StackCompiler

namespace Machine

/-- Two moments at the same place with the same stack, store and calls. -/
structure Moment.Abreast (m m' : Moment) : Prop where
  pc : m.config.pc = m'.config.pc
  stack : m.config.stack = m'.config.stack
  store : m.store = m'.store
  calls : m.calls = m'.calls

inductive Stage.Abreast : Stage → Stage → Prop
  | running {m m' : Moment} (h : m.Abreast m') : Abreast (.running m) (.running m')
  | ended (e : Ending) {m m' : Moment} (h : m.Abreast m') : Abreast (.ended e m) (.ended e m')

section abreast

variable {h : Host} {code : Code} {f : Slot → Slot} {m m' : Moment}

theorem run_of_ended (e : Ending) (n : Nat) : h.run code n (.ended e m) = .ended e m := by
  cases n <;> rfl

/-- One step: both sides end, or they go on with live slots that agree. -/
theorem Moment.Abreast.step (hm : m.Abreast m') (hf : Apart code f)
    (ha : Agree code f m.config m'.config) :
    (∃ e k k', m.step h code = .ended e k ∧ m'.step h (code.map (Instr.renumber f)) = .ended e k' ∧
      k.Abreast k') ∨
    ∃ k k', m.step h code = .running k ∧ m'.step h (code.map (Instr.renumber f)) = .running k' ∧
      k.Abreast k' ∧ Agree code f k.config k'.config := by
  have hstep := ha.step hf h.operations m.store
  obtain ⟨c,s,calls⟩ := m
  obtain ⟨c',s',calls'⟩ := m'
  obtain ⟨hpc,hstack,rfl,rfl⟩ := hm
  simp only [Moment.step] at hstep ⊢
  generalize Machine.step h.operations code c s = a at hstep
  generalize Machine.step h.operations (code.map (Instr.renumber f)) c' s = a' at hstep
  cases hstep with
  | next hd => exact .inr ⟨_,_,rfl,rfl,⟨hd.pc.symm,hd.stack.symm,rfl,rfl⟩,hd⟩
  | @call target args returns k k' hk =>
    simp only [Moment.perform]
    cases h.answer (calls ++ [⟨target,args,s⟩]) with
    | halt e t => exact .inl ⟨_,_,_,rfl,rfl,hpc,hstack,rfl,rfl⟩
    | resume t v =>
      have hrel := rel_resume (R := fun d d' _ => Agree code f d d') (t := t) fun d _ hd => hk v d hd
      simp only
      revert hrel
      cases k.resume returns v <;> cases k'.resume returns v <;> intro hrel <;> cases hrel
      · exact .inl ⟨_,_,_,rfl,rfl,hpc,hstack,rfl,rfl⟩
      · next hd => exact .inr ⟨_,_,rfl,rfl,⟨hd.pc.symm,hd.stack.symm,rfl,rfl⟩,hd⟩
  | ret | trap | underflow => exact .inl ⟨_,_,_,rfl,rfl,hpc,hstack,rfl,rfl⟩

theorem abreast_run (hf : Apart code f) (hm : m.Abreast m') (ha : Agree code f m.config m'.config)
    (n : Nat) : (h.run code n (.running m)).Abreast
      (h.run (code.map (Instr.renumber f)) n (.running m')) := by
  induction n generalizing m m' with
  | zero => exact .running hm
  | succ n ih =>
    rw [Host.run,Host.run]
    rcases hm.step hf ha (h := h) with ⟨e,k,k',hk,hk',hends⟩ | ⟨k,k',hk,hk',hnext,hagree⟩
    · rw [hk,hk',run_of_ended,run_of_ended]
      exact .ended e hends
    · rw [hk,hk']
      exact ih hnext hagree

end abreast

section simplified

variable {h : Host} {code : Code} {m : Moment} {seen : Seen (Slot → Value)}

/-- What shows of a run after one pass over the windows and after what control cannot reach is
dropped. -/
theorem shows_pass (ho : h.operations.Lawful) (hnodup : code.labels.Nodup) (hpc : m.config.pc = 0)
    (hs : Supplied h code m) :
    Supplied h (Window.reachable true ((Window.segments 0 code).map Window.Segment.code).flatten) m ∧
      ∀ seen, Shows h code id m seen ↔
        Shows h (Window.reachable true ((Window.segments 0 code).map Window.Segment.code).flatten) id m
          seen := by
  have hwindows : Moment.Related h code
      (fun c c' _ => Between (Window.patches code) (fun _ => True) c c') True m m :=
    ⟨between_start trivial hpc,rfl,rfl,fun _ => hs⟩
  have hsupplied := supplied_of_follows (fun _ _ _ => follows_windows ho hnodup) hwindows
  have hreach : Moment.Related h (Patch.targets (Window.patches code))
      (fun c c' _ => Between (Window.reaching true (Patch.targets (Window.patches code)))
        Window.Stays c c') True m m :=
    ⟨between_start (Window.stays_reaching _) hpc,rfl,rfl,fun _ => hsupplied⟩
  rw [← Window.targets_patches]
  refine ⟨supplied_of_follows (fun _ _ _ => follows_reaching True) hreach,fun seen => ?_⟩
  exact (shows_iff_of_follows (fun _ _ _ => follows_windows ho hnodup) hwindows seen).trans
    (shows_iff_of_follows (fun _ _ _ => follows_reaching True) hreach seen)

theorem shows_passes (ho : h.operations.Lawful) (n : Nat) (hnodup : code.labels.Nodup)
    (hpc : m.config.pc = 0) (hs : Supplied h code m) :
    Shows h code id m seen ↔ Shows h (Window.passes n code).code id m seen := by
  induction n generalizing code with
  | zero => exact .rfl
  | succ n ih =>
    obtain ⟨hsupplied,hshows⟩ := shows_pass ho hnodup hpc hs
    rw [Window.passes]
    simp only
    split
    · exact .rfl
    · exact (hshows seen).trans (ih (labels_pass code ▸ hnodup) hsupplied)

end simplified

end Machine

open Machine

/-- A routine with shared slots goes through the same positions as before with the same stack, store
and calls. Two slots get one number only if they are of the same type, neither is a parameter and
their intervals lie apart. -/
theorem RoutineCode.abreast_shareSlots {r : RoutineCode} (hr : r.Framed) :
    (∀ (h : Host) (args : List Value) (s : Store) (calls : List Call) (n : Nat),
      (h.run r.code n (.running ⟨enter r args,s,calls⟩)).Abreast
        (h.run r.shareSlots.routine.code n (.running ⟨enter r.shareSlots.routine args,s,calls⟩))) ∧
    ∀ x y n, x ≠ y → (Sharing.allocate r).mapping.lookup x = some n →
      (Sharing.allocate r).mapping.lookup y = some n →
      r.params ≤ x ∧ r.params ≤ y ∧ ∃ a ∈ r.intervals, ∃ b ∈ r.intervals, a.slot = x ∧ b.slot = y ∧
        a.info.type = b.info.type ∧ (a.stop < b.start ∨ b.stop < a.start) := by
  refine ⟨fun h args s calls n => ?_,fun x y n hne hx hy => hr.apart_of_shared hne hx hy⟩
  have hstart : Moment.Abreast ⟨enter r args,s,calls⟩ ⟨enter r.shareSlots.routine args,s,calls⟩ :=
    ⟨rfl,rfl,rfl,rfl⟩
  exact abreast_run hr.apart_renamed hstart (hr.agree_enter args) n

/-- A loop with two variables that are never in use together. -/
def echoing : RoutineCode where
  name := "ECHO"
  params := 1
  returns := .void
  frame := [⟨0,.scalar .integer,.parameter,["N"]⟩,⟨1,.scalar .integer,.localVar,["A"]⟩,
    ⟨2,.scalar .integer,.localVar,["B"]⟩]
  code := [.label 0,.load (.slot 0),.store (.slot 1),.load (.slot 1),
    .call (.runtime "WRITE") 1 false,.load (.slot 0),.store (.slot 2),.load (.slot 2),
    .const (.integer 0),.binary .gt .integer,.branchIf true 0,.ret false]

theorem framed_echoing : echoing.Framed := ⟨by decide,by decide,by decide⟩

theorem RoutineCode.abreast_shareSlots_echoing :
    echoing.Framed ∧ (Sharing.allocate echoing).mapping.lookup 1 = some 1 ∧
      (Sharing.allocate echoing).mapping.lookup 2 = some 1 ∧
      (Lowering.quiet.run echoing.code 100 (.running
          ⟨enter echoing [.scalar (.integer 7)],⟨fun _ => .nothing,[]⟩,[]⟩)).Abreast
        (Lowering.quiet.run echoing.shareSlots.routine.code 100 (.running
          ⟨enter echoing.shareSlots.routine [.scalar (.integer 7)],⟨fun _ => .nothing,[]⟩,[]⟩)) ∧
      ∃ a ∈ echoing.intervals, ∃ b ∈ echoing.intervals, a.slot = 1 ∧ b.slot = 2 ∧
        a.info.type = b.info.type ∧ (a.stop < b.start ∨ b.stop < a.start) := by
  have hfirst : (Sharing.allocate echoing).mapping.lookup 1 = some 1 := by decide +kernel
  have hsecond : (Sharing.allocate echoing).mapping.lookup 2 = some 1 := by decide +kernel
  obtain ⟨hruns,hshared⟩ := RoutineCode.abreast_shareSlots framed_echoing
  exact ⟨framed_echoing,hfirst,hsecond,hruns _ _ _ _ _,
    (hshared 1 2 1 (by decide) hfirst hsecond).2.2⟩

/-- Code with windows replaced has the same labels. If none of them is defined twice and the operators
do what is done with constants, a run that does not underflow shows the same from the first
instruction on, whatever is on the stack, in the slots and in the store. -/
theorem Code.shows_simplify (code : Code) :
    code.simplify.code.labels = code.labels ∧
      ∀ (h : Host) (m : Moment), code.labels.Nodup → h.operations.Lawful → m.config.pc = 0 →
        Supplied h code m →
        ∀ seen, Shows h code id m seen ↔ Shows h code.simplify.code id m seen :=
  ⟨(Window.kept_passes _ _).labels,fun _ _ hnodup ho hpc hs _ => shows_passes ho _ hnodup hpc hs⟩

/-- A sum of constants that is written over and over, with a branch past code that is never run. -/
def summing : Code :=
  [.label 0,.const (.integer 2),.const (.integer 3),.binary .add .integer,.store (.slot 0),
    .load (.slot 0),.call (.runtime "WRITE") 1 false,.branch 1,.const (.integer 4),.pop,.label 1,
    .const (.boolean true),.branchIf true 0,.ret false]

theorem Code.shows_simplify_summing :
    summing.simplify.code = [.label 0,.const (.integer 5),.dup,.store (.slot 0),
      .call (.runtime "WRITE") 1 false,.label 1,.branch 0] ∧
    summing.labels.Nodup ∧ Lowering.quiet.operations.Lawful ∧
    Supplied Lowering.quiet summing ⟨⟨0,[],fun _ => .nothing⟩,⟨fun _ => .nothing,[]⟩,[]⟩ ∧
    ∀ seen, Shows Lowering.quiet summing id
        ⟨⟨0,[],fun _ => .nothing⟩,⟨fun _ => .nothing,[]⟩,[]⟩ seen ↔
      Shows Lowering.quiet summing.simplify.code id
        ⟨⟨0,[],fun _ => .nothing⟩,⟨fun _ => .nothing,[]⟩,[]⟩ seen := by
  have hnodup : summing.labels.Nodup := by decide
  have hmarked : Config.Marked summing ⟨0,[],fun _ => .nothing⟩ := ⟨[],rfl,rfl⟩
  have hs : Supplied Lowering.quiet summing ⟨⟨0,[],fun _ => .nothing⟩,⟨fun _ => .nothing,[]⟩,[]⟩ :=
    (hmarked.safe rfl _ _).supplied
  exact ⟨by decide +kernel,hnodup,Operations.folding_lawful,hs,
    (Code.shows_simplify summing).2 _ _ hnodup Operations.folding_lawful rfl hs⟩

end StackCompiler
