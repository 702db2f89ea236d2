import StackCompiler.Proofs.ModuleRuns
import StackCompiler.Proofs.OpenRuns

/-! What can be seen of the run of one routine.
An observer sees every call with its arguments and the store, the end with what is returned, and both
times as much of the slots as a view lets through. Codes that follow each other look the same; where
that is not claimed of stacks that run dry, the run has to be supplied with values. -/
namespace StackCompiler.Machine

def Host.run (h : Host) (code : Code) : Nat → Stage → Stage
  | 0, x => x
  | _ + 1, .ended e m => .ended e m
  | n + 1, .running m => h.run code n (m.step h code)

structure Sight (α : Type) where
  call : Call
  slots : α

/-- What was seen of a run: its calls, and how it ended, with the slots and the store. -/
structure Seen (α : Type) where
  calls : List (Sight α)
  ending : Option (Ending × α × Store)

def Moment.sights {α : Type} (m : Moment) (view : (Slot → Value) → α) : Action → List (Sight α)
  | .call target args _ _ => [⟨⟨target,args,m.store⟩,view m.config.slots⟩]
  | _ => []

def Host.watch (h : Host) (code : Code) {α : Type} (view : (Slot → Value) → α) : Nat → Stage → Seen α
  | _, .ended e m => ⟨[],some (e,view m.config.slots,m.store)⟩
  | 0, .running _ => ⟨[],none⟩
  | n + 1, .running m =>
    let rest := h.watch code view n (m.step h code)
    ⟨m.sights view (Machine.step h.operations code m.config m.store) ++ rest.calls,rest.ending⟩

/-- This is seen of the run after some number of steps. A run that does not end never shows an end. -/
def Shows (h : Host) (code : Code) {α : Type} (view : (Slot → Value) → α) (m : Moment)
    (seen : Seen α) : Prop :=
  ∃ n, h.watch code view n (.running m) = seen

/-- No instruction of the run finds too few values on the stack. -/
def Supplied (h : Host) (code : Code) (m : Moment) : Prop :=
  ∀ n m', h.run code n (.running m) = .running m' →
    Machine.step h.operations code m'.config m'.store ≠ .underflow

section watching

variable {h : Host} {code code' : Code} {α : Type} {view : (Slot → Value) → α} {c d : Config}
  {s t : Store} {calls : List Call} {a : Action} {k : Nat} {m m' : Moment}

theorem step_next (hstep : Machine.step h.operations code c s = .next d t) :
    Moment.step ⟨c,s,calls⟩ h code = .running ⟨d,t,calls⟩ := by
  simp only [Moment.step,hstep,Moment.perform]

theorem run_silent (calls : List Call) (hs : Steps h.operations code k c s d t) (j : Nat) :
    h.run code (k + j) (.running ⟨c,s,calls⟩) = h.run code j (.running ⟨d,t,calls⟩) := by
  induction hs with
  | refl => rw [Nat.zero_add]
  | succ hstep _ ih => rw [Nat.add_right_comm,Host.run,step_next hstep,ih]

theorem run_stops (calls : List Call) (hs : StopsIn h.operations code k c s d a t) (j : Nat) :
    h.run code (k + 1 + j) (.running ⟨c,s,calls⟩) =
      h.run code j (Moment.perform ⟨d,t,calls⟩ h a) := by
  obtain ⟨hd,rfl,_⟩ := hs
  rw [Nat.add_assoc,run_silent calls hd,Nat.add_comm 1 j,Host.run,Moment.step]

theorem watch_silent (view : (Slot → Value) → α) (calls : List Call)
    (hs : Steps h.operations code k c s d t) (j : Nat) :
    h.watch code view (k + j) (.running ⟨c,s,calls⟩) = h.watch code view j (.running ⟨d,t,calls⟩) := by
  induction hs with
  | refl => rw [Nat.zero_add]
  | succ hstep _ ih =>
    rw [Nat.add_right_comm,Host.watch,step_next hstep,ih]
    simp only [hstep]
    rfl

theorem watch_stops (view : (Slot → Value) → α) (calls : List Call)
    (hs : StopsIn h.operations code k c s d a t) (j : Nat) :
    h.watch code view (k + 1 + j) (.running ⟨c,s,calls⟩) =
      ⟨Moment.sights ⟨d,t,calls⟩ view a ++
          (h.watch code view j (Moment.perform ⟨d,t,calls⟩ h a)).calls,
        (h.watch code view j (Moment.perform ⟨d,t,calls⟩ h a)).ending⟩ := by
  obtain ⟨hd,rfl,_⟩ := hs
  rw [Nat.add_assoc,watch_silent view calls hd,Nat.add_comm 1 j,Host.watch]
  rfl

inductive Stage.Alike (view : (Slot → Value) → α) (P : Moment → Moment → Prop) : Stage → Stage → Prop
  | running {m m' : Moment} (hm : P m m') : Alike view P (.running m) (.running m')
  | ended (e : Ending) {m m' : Moment} (hslots : view m.config.slots = view m'.config.slots)
    (hstore : m.store = m'.store) : Alike view P (.ended e m) (.ended e m')

/-- Whatever the first code comes to from related moments, the second comes to the same, and what
follows is alike. -/
def Accompanies (h : Host) (code code' : Code) (view : (Slot → Value) → α)
    (P : Moment → Moment → Prop) : Prop :=
  ∀ m m', P m m' → ∀ d a t, Stops h.operations code m.config m.store d a t →
    ∃ d' a', Stops h.operations code' m'.config m'.store d' a' t ∧
      Moment.sights ⟨d,t,m.calls⟩ view a = Moment.sights ⟨d',t,m'.calls⟩ view a' ∧
      Stage.Alike view P (Moment.perform ⟨d,t,m.calls⟩ h a) (Moment.perform ⟨d',t,m'.calls⟩ h a')

/-- What is seen of the first run is seen of the second, perhaps after more steps or fewer. -/
theorem Accompanies.watch {P : Moment → Moment → Prop} (hP : Accompanies h code code' view P)
    {x x' : Stage} (hx : x.Alike view P x') (n : Nat) :
    ∃ n', h.watch code' view n' x' = h.watch code view n x := by
  induction n using Nat.strongRecOn generalizing x x' with
  | ind n ih =>
    cases hx with
    | ended e hslots hstore =>
      refine ⟨0,?_⟩
      simp only [Host.watch,hslots,hstore]
    | @running m m' hm =>
      rcases steps_or_meets h.operations code n m.config m.store with ⟨d,t,hd⟩ | ⟨k,a,t,hk,d,hd⟩
      · refine ⟨0,?_⟩
        exact (watch_silent view m.calls hd 0).symm
      · obtain ⟨d',a',⟨k',hd'⟩,hsights,halike⟩ := hP m m' hm d a t ⟨k,hd⟩
        obtain ⟨j,hj⟩ := ih (n - (k + 1)) (by omega) halike
        have hfirst := watch_stops view m.calls hd (n - (k + 1))
        have hsecond := watch_stops view m'.calls hd' j
        rw [hj,← hsights,← hfirst,show k + 1 + (n - (k + 1)) = n by omega] at hsecond
        exact ⟨k' + 1 + j,hsecond⟩

theorem alike_perform {R : Config → Config → Store → Prop} {P : Moment → Moment → Prop} {a' : Action}
    {d' : Config} (hm : a.Matches R a') (hview : view d.slots = view d'.slots)
    (hP : ∀ e e' u more, Moment.perform ⟨d,t,calls⟩ h a = .running ⟨e,u,more⟩ →
      Moment.perform ⟨d',t,calls⟩ h a' = .running ⟨e',u,more⟩ → R e e' u →
      P ⟨e,u,more⟩ ⟨e',u,more⟩) :
    Moment.sights ⟨d,t,calls⟩ view a = Moment.sights ⟨d',t,calls⟩ view a' ∧
      Stage.Alike view P (Moment.perform ⟨d,t,calls⟩ h a) (Moment.perform ⟨d',t,calls⟩ h a') := by
  cases a <;> cases a' <;> simp only [Action.Matches] at hm
  case call.call target args returns k target' args' returns' k' =>
    obtain ⟨rfl,rfl,rfl,hk⟩ := hm
    refine ⟨by simp only [Moment.sights,hview],?_⟩
    simp only [Moment.perform] at hP ⊢
    generalize h.answer (calls ++ [⟨target,args,t⟩]) = reply at hP
    cases reply with
    | halt e u => exact .ended e hview rfl
    | resume u v =>
      simp only at hP ⊢
      have hrel := rel_resume (t := u) fun d s hd => hk v d s hd
      revert hrel hP
      cases k.resume returns v <;> cases k'.resume returns v <;> intro hP hrel <;> cases hrel
      · exact .ended _ hview rfl
      · next hR => exact .running (hP _ _ _ _ rfl rfl hR)
  case ret.ret =>
    subst hm
    exact ⟨rfl,.ended _ hview rfl⟩
  all_goals exact ⟨rfl,.ended _ hview rfl⟩

end watching

section supplied

variable {h : Host} {code code' : Code} {m m' : Moment} {d : Config} {t : Store} {a : Action}

/-- What has to be shown of a supplied run, from one action to the next. -/
theorem supplied_of_invariant {I : Moment → Prop}
    (hI : ∀ m, I m → ∀ d a t, Stops h.operations code m.config m.store d a t →
      a ≠ .underflow ∧ ∀ m', Moment.perform ⟨d,t,m.calls⟩ h a = .running m' → I m')
    (hm : I m) : Supplied h code m := by
  intro n m' hrun hunder
  induction n using Nat.strongRecOn generalizing m with
  | ind n ih =>
    rcases steps_or_meets h.operations code n m.config m.store with ⟨d,t,hd⟩ | ⟨k,a,t,hk,d,hd⟩
    · have hsilent := run_silent m.calls hd 0
      obtain rfl := Stage.running.inj (hsilent.symm.trans hrun)
      exact (hI m hm d _ t ⟨n,hd,hunder,rfl⟩).1 rfl
    · have hstops := run_stops m.calls hd (n - (k + 1))
      rw [show k + 1 + (n - (k + 1)) = n by omega] at hstops
      have hnext := (hI m hm d a t ⟨k,hd⟩).2
      have hrest := hstops.symm.trans hrun
      cases hp : Moment.perform ⟨d,t,m.calls⟩ h a with
      | ended e m₁ =>
        rw [hp] at hrest
        cases hn : n - (k + 1) <;> rw [hn] at hrest <;> cases hrest
      | running m₁ =>
        rw [hp] at hrest
        exact ih (n - (k + 1)) (by omega) (hnext m₁ hp) hrest

theorem Supplied.stops (hm : Supplied h code m)
    (hd : Stops h.operations code m.config m.store d a t) : a ≠ .underflow := by
  rintro rfl
  obtain ⟨k,hd,hunder,_⟩ := hd
  exact hm k _ (run_silent m.calls hd 0) hunder

theorem Supplied.perform (hm : Supplied h code m)
    (hd : Stops h.operations code m.config m.store d a t)
    (hp : Moment.perform ⟨d,t,m.calls⟩ h a = .running m') : Supplied h code m' := by
  obtain ⟨k,hd⟩ := hd
  intro n m'' hrun
  refine hm (k + 1 + n) m'' ?_
  have hstops := run_stops m.calls hd n
  rw [hp] at hstops
  exact hstops.trans hrun

/-- After an action that shows, a run goes on only from the result of a call. -/
theorem resume_of_perform (ha : a.isSilent = false) (hp : m.perform h a = .running m') :
    ∃ target args returns k v, a = .call target args returns k ∧
      k.resume returns v = some m'.config := by
  cases a with
  | next => cases ha
  | ret | trap | underflow => cases hp
  | call target args returns k =>
    simp only [Moment.perform] at hp
    split at hp
    · cases hp
    · next t v _ =>
      split at hp
      · next d hd =>
        cases hp
        exact ⟨target,args,returns,k,v,rfl,hd⟩
      · cases hp

/-- A stack that never runs dry does not do so whoever answers the calls. -/
theorem Safe.supplied (hs : Safe h.operations code m.config m.store) : Supplied h code m := by
  refine supplied_of_invariant (I := fun m => Safe h.operations code m.config m.store) ?_ hs
  rintro m hm d a t ⟨n,hd,ha,hq⟩
  have hsafe := hm.steps hd
  refine ⟨?_,fun m' hp => ?_⟩
  · rintro rfl
    exact hsafe.step_ne_underflow ha
  · obtain ⟨target,args,returns,k,v,rfl,hk⟩ := resume_of_perform hq hp
    exact hsafe.call ha hk

end supplied

structure Moment.Related (h : Host) (code : Code) (R : Config → Config → Store → Prop)
    (excused : Prop) (m m' : Moment) : Prop where
  config : R m.config m'.config m.store
  store : m.store = m'.store
  calls : m.calls = m'.calls
  supplied : excused → Supplied h code m

section following

variable {h : Host} {code code' : Code} {R : Config → Config → Store → Prop} {α : Type}
  {view : (Slot → Value) → α} {excused : Prop} {rank : Config → Nat} {m m' : Moment}

theorem accompanies_of_follows
    (hR : ∀ c c' s, R c c' s → Follows h.operations code code' R view excused rank c c' s) :
    Accompanies h code code' view (Moment.Related h code R excused) := by
  intro m m' hm d a t hd
  rcases stops_of_follows hR hm.config hd with ⟨hx,ha⟩ | ⟨d',a',hd',hview,hmatch⟩
  · exact absurd ha ((hm.supplied hx).stops hd)
  · rw [hm.store] at hd'
    refine ⟨d',a',hd',?_⟩
    rw [← hm.calls]
    refine alike_perform hmatch hview fun e e' u more hp _ hrel => ?_
    exact ⟨hrel,rfl,rfl,fun hx => (hm.supplied hx).perform hd hp⟩

theorem accompanies_back_of_follows
    (hR : ∀ c c' s, R c c' s → Follows h.operations code code' R view excused rank c c' s) :
    Accompanies h code' code view fun m' m => Moment.Related h code R excused m m' := by
  intro m' m hm d' a' t hd'
  rw [← hm.store] at hd'
  rcases stops_back_of_follows hR hm.config hd' with ⟨hx,d,u,hd⟩ | ⟨d,a,hd,hview,hmatch⟩
  · exact absurd rfl ((hm.supplied hx).stops hd)
  · refine ⟨d,a,hd,?_⟩
    rw [← hm.calls]
    refine alike_perform hmatch.symm hview.symm fun e' e u more _ hp hrel => ?_
    exact ⟨hrel,rfl,rfl,fun hx => (hm.supplied hx).perform hd hp⟩

theorem shows_iff_of_follows
    (hR : ∀ c c' s, R c c' s → Follows h.operations code code' R view excused rank c c' s)
    (hm : Moment.Related h code R excused m m') (seen : Seen α) :
    Shows h code view m seen ↔ Shows h code' view m' seen := by
  constructor
  · rintro ⟨n,rfl⟩
    exact (accompanies_of_follows hR).watch (.running hm) n
  · rintro ⟨n,rfl⟩
    exact (accompanies_back_of_follows hR).watch (.running hm) n

theorem supplied_of_follows
    (hR : ∀ c c' s, R c c' s → Follows h.operations code code' R view excused rank c c' s)
    (hm : Moment.Related h code R True m m') : Supplied h code' m' := by
  refine supplied_of_invariant (I := fun m' => ∃ m, Moment.Related h code R True m m') ?_ ⟨m,hm⟩
  rintro m' ⟨m,hm⟩ d' a' t hd'
  rw [← hm.store] at hd'
  have hs := hm.supplied trivial
  rcases stops_back_of_follows hR hm.config hd' with ⟨_,d,u,hd⟩ | ⟨d,a,hd,hview,hmatch⟩
  · exact absurd rfl (hs.stops hd)
  · refine ⟨?_,fun m₁' hp' => ?_⟩
    · rintro rfl
      have ha := hs.stops hd
      cases a <;> simp [Action.Matches] at hmatch ha
    · rw [← hm.calls] at hp'
      have halike : Stage.Alike view (Moment.Related h code R True)
          (Moment.perform ⟨d,t,m.calls⟩ h a) (Moment.perform ⟨d',t,m.calls⟩ h a') :=
        (alike_perform hmatch hview fun e e' u more hp _ hrel =>
          ⟨hrel,rfl,rfl,fun _ => hs.perform hd hp⟩).2
      rw [hp'] at halike
      cases hp : Moment.perform ⟨d,t,m.calls⟩ h a with
      | ended => rw [hp] at halike; cases halike
      | running m₁ =>
        rw [hp] at halike
        cases halike with
        | running hrel => exact ⟨m₁,hrel⟩

end following

end StackCompiler.Machine
