import Mathlib.Data.List.Forall2
import StackCompiler.Proofs.Bisimulation

/-! Modules whose routines cannot be told apart run alike.
The callers that wait are related one by one; between two actions that show, each side makes its own
silent steps. -/
namespace StackCompiler.Machine

/-- Two routines that are bisimilar from the start, whatever the arguments and the store. -/
def Interchangeable (o : Operations) (r r' : RoutineCode) : Prop :=
  ∀ args s, Bisimilar o r.code r'.code (enter r args) (enter r' args) s

namespace Interchangeable

variable {o : Operations} {r r' r'' : RoutineCode}

theorem refl (o : Operations) (r : RoutineCode) : Interchangeable o r r :=
  fun _ _ => .refl _ _ _ _

theorem symm (h : Interchangeable o r r') : Interchangeable o r' r :=
  fun args s => (h args s).symm

theorem trans (h₁ : Interchangeable o r r') (h₂ : Interchangeable o r' r'') :
    Interchangeable o r r'' :=
  fun args s => (h₁ args s).trans (h₂ args s)

end Interchangeable

/-- Every entry name leads to interchangeable routines, or to none on both sides. -/
def SameRoutines (o : Operations) (m m' : Module) : Prop :=
  ∀ entry, Option.Rel (Interchangeable o) (routine? m entry) (routine? m' entry)

structure Caller.Related (o : Operations) (a b : Caller) : Prop where
  returns : a.returns = b.returns
  resumes : ∀ v d s, a.config.resume a.returns v = some d →
    ∃ d', b.config.resume a.returns v = some d' ∧
      Bisimilar o a.routine.code b.routine.code d d' s

structure State.Related (o : Operations) (s s' : State) : Prop where
  config : Bisimilar o s.routine.code s'.routine.code s.config s'.config s.store
  callers : List.Forall₂ (Caller.Related o) s.callers s'.callers
  store : s.store = s'.store
  events : s.events = s'.events

inductive Run.Related (o : Operations) : Run → Run → Prop
  | running {s s' : State} : s.Related o s' → Related o (.running s) (.running s')
  | ended (r : Result) : Related o (.ended r) (.ended r)

section lifting

variable {m m' : Module} {o : Operations} {lib : Library}

def State.at (s : State) (c : Config) (t : Store) : State := { s with config := c, store := t }

theorem run_ended (m : Module) (o : Operations) (lib : Library) (n : Nat) (r : Result) :
    run m o lib n (.ended r) = .ended r := by
  cases n <;> rfl

theorem run_steps (m : Module) (lib : Library) {k : Nat} {s : State} {c d : Config} {t u : Store}
    (h : Steps o s.routine.code k c t d u) (j : Nat) :
    run m o lib (k + j) (.running (s.at c t)) = run m o lib j (.running (s.at d u)) := by
  induction h with
  | refl => rw [Nat.zero_add]
  | succ hs _ ih =>
    rw [Nat.add_right_comm,run,State.step]
    simp only [State.at] at hs ih ⊢
    rw [hs]
    exact ih

theorem run_meets (m : Module) (lib : Library) {k : Nat} {s : State} {c : Config} {t u : Store}
    {a : Action}
    (h : MeetsIn o s.routine.code k c t a u) :
    ∃ d, ∀ j, run m o lib (k + 1 + j) (.running (s.at c t)) =
      run m o lib j ((s.at d u).perform m lib a) := by
  obtain ⟨d,hd,ha,_⟩ := h
  refine ⟨d,fun j => ?_⟩
  rw [Nat.add_assoc,run_steps m lib hd,Nat.add_comm 1 j,run,State.step]
  simp only [State.at] at ha ⊢
  rw [ha]

/-- Either all of the steps are silent, or something shows before. -/
theorem steps_or_meets (o : Operations) (code : Code) (n : Nat) (c : Config) (s : Store) :
    (∃ d t, Steps o code n c s d t) ∨ ∃ k a t, k < n ∧ MeetsIn o code k c s a t := by
  induction n generalizing c s with
  | zero => exact .inl ⟨c,s,.refl c s⟩
  | succ n ih =>
    cases ha : step o code c s with
    | next d t =>
      rcases ih d t with ⟨e,u,he⟩ | ⟨k,a,u,hk,hm⟩
      · exact .inl ⟨e,u,.succ ha he⟩
      · refine .inr ⟨k + 1,a,u,by omega,?_⟩
        rw [Nat.add_comm]
        exact (Steps.one ha).meetsIn hm
    | call | ret | trap | underflow =>
      exact .inr ⟨0,_,s,by omega,c,.refl c s,ha,rfl⟩

theorem State.Related.goOn {s s' : State} {c c' : Option Config}
    (hcallers : List.Forall₂ (Caller.Related o) s.callers s'.callers) (hstore : s.store = s'.store)
    (hevents : s.events = s'.events)
    (h : Option.Rel (fun c c' => Bisimilar o s.routine.code s'.routine.code c c' s.store) c c') :
    Run.Related o (s.goOn c) (s'.goOn c') := by
  cases h with
  | none => simp only [State.goOn,hstore,hevents]; exact .ended _
  | some h => exact .running ⟨h,hcallers,hstore,hevents⟩

theorem rel_resume {R : Config → Config → Store → Prop} {c c' : Config} {returns : Bool}
    {v : Option Value} {t : Store}
    (h : ∀ d s, c.resume returns v = some d → ∃ d', c'.resume returns v = some d' ∧ R d d' s) :
    Option.Rel (fun d d' => R d d' t) (c.resume returns v) (c'.resume returns v) := by
  cases hc : c.resume returns v with
  | none =>
    have hn := Config.resume_isSome c c' returns v
    rw [hc] at hn
    have hc' : c'.resume returns v = none := by simpa using hn.symm
    rw [hc']
    exact .none
  | some d =>
    obtain ⟨d',hd',hR⟩ := h d t hc
    rw [hd']
    exact .some hR

/-- Matching actions lead from related states to related states. -/
theorem State.Related.perform {s s' : State} {a a' : Action} (hm : SameRoutines o m m')
    (hcallers : List.Forall₂ (Caller.Related o) s.callers s'.callers) (hstore : s.store = s'.store)
    (hevents : s.events = s'.events) (hsilent : a.isSilent = false)
    (ha : a.Matches (Bisimilar o s.routine.code s'.routine.code) a') :
    Run.Related o (s.perform m lib a) (s'.perform m' lib a') := by
  cases a with
  | next => simp [Action.isSilent] at hsilent
  | trap =>
    cases a' <;> simp only [Action.Matches] at ha
    simp only [State.perform,hstore,hevents]; exact .ended _
  | underflow =>
    cases a' <;> simp only [Action.Matches] at ha
    simp only [State.perform,hstore,hevents]; exact .ended _
  | ret v =>
    cases a' <;> simp only [Action.Matches] at ha
    subst ha
    obtain ⟨r,c,callers,t,events⟩ := s
    obtain ⟨r',c',callers',t',events'⟩ := s'
    cases hcallers with
    | nil => simp only [State.perform] at *; rw [hstore,hevents]; exact .ended _
    | cons h hrest =>
      refine State.Related.goOn hrest hstore hevents ?_
      have hr := rel_resume (t := t) fun d t hd => h.resumes v d t hd
      rwa [h.returns] at hr ⊢
  | call target args returns c =>
    cases a' with
    | call target' args' returns' c' =>
      obtain ⟨rfl,rfl,rfl,hk⟩ := ha
      cases target with
      | routine entry =>
        simp only [State.perform]
        have he := hm entry
        revert he
        cases routine? m entry <;> cases routine? m' entry <;> intro he <;> cases he
        · simp only [hstore,hevents]; exact .ended _
        · rename_i hr
          exact .running ⟨hr args s.store,.cons ⟨rfl,hk⟩ hcallers,hstore,hevents⟩
      | runtime name =>
        simp only [State.perform,hstore,hevents]
        split
        · exact .ended _
        · exact State.Related.goOn hcallers rfl rfl (rel_resume fun d t hd => hk _ d t hd)
    | _ => simp [Action.Matches] at ha

/-- What can be seen of a run can be seen of every related one. -/
theorem exists_observe_eq (lib : Library) (hm : SameRoutines o m m') (n : Nat) {x x' : Run} (h : x.Related o x') :
    ∃ n', observe (run m' o lib n' x') = observe (run m o lib n x) := by
  induction n using Nat.strongRecOn generalizing x x' with
  | ind n ih =>
    cases h with
    | ended r => exact ⟨0,by rw [run_ended,run_ended]⟩
    | @running s s' h =>
      rcases steps_or_meets o s.routine.code n s.config s.store with ⟨d,t,hd⟩ | ⟨k,a,t,hk,ha⟩
      · refine ⟨0,?_⟩
        have hr := run_steps m lib (s := s) hd 0
        rw [Nat.add_zero] at hr
        rw [show s = s.at s.config s.store from rfl,hr]
        simp [run,observe,State.at,h.events]
      · obtain ⟨a',⟨k',ha'⟩,hmatch⟩ := h.config.meets ⟨k,ha⟩
        obtain ⟨d,hd⟩ := run_meets m lib (s := s) ha
        rw [h.store] at ha'
        obtain ⟨d',hd'⟩ := run_meets m' lib (s := s') ha'
        obtain ⟨_,_,_,hq⟩ := ha
        have hr : Run.Related o ((s.at d t).perform m lib a) ((s'.at d' t).perform m' lib a') :=
          State.Related.perform hm h.callers rfl h.events hq hmatch
        obtain ⟨n',hn'⟩ := ih (n - (k + 1)) (by omega) hr
        refine ⟨k' + 1 + n',?_⟩
        have h₁ := hd' n'
        simp only [State.at] at h₁ hd hn' ⊢
        rw [h₁,hn',← hd (n - (k + 1)),show k + 1 + (n - (k + 1)) = n by omega]

theorem SameRoutines.symm (hm : SameRoutines o m m') : SameRoutines o m' m := by
  intro entry
  have he := hm entry
  revert he
  cases routine? m entry <;> cases routine? m' entry <;> intro he <;> cases he
  · exact .none
  · exact .some (Interchangeable.symm ‹_›)

/-- Runs that start at interchangeable routines show the same. -/
theorem observes_iff (hm : SameRoutines o m m')
    {i i' : Nat} (hr : Option.Rel (Interchangeable o) m.routines[i]? m'.routines[i']?)
    (args : List Value) (s : Store) (seen : List Event × Option Result) :
    Observes m o lib (begin m i args s) seen ↔ Observes m' o lib (begin m' i' args s) seen := by
  have key : ∀ {m m' : Module} {i i' : Nat}, SameRoutines o m m' →
      Option.Rel (Interchangeable o) m.routines[i]? m'.routines[i']? →
      Observes m o lib (begin m i args s) seen → Observes m' o lib (begin m' i' args s) seen := by
    rintro m m' i i' hm hr ⟨n,hn⟩
    have hx : Run.Related o (begin m i args s) (begin m' i' args s) := by
      revert hr
      unfold begin
      cases m.routines[i]? <;> cases m'.routines[i']? <;> intro hr <;> cases hr
      · exact .ended _
      · rename_i h
        exact .running ⟨h args s,.nil,rfl,rfl⟩
    obtain ⟨n',hn'⟩ := exists_observe_eq lib hm n hx
    exact ⟨n',hn'.trans hn⟩
  refine ⟨key hm hr,key hm.symm ?_⟩
  revert hr
  cases m.routines[i]? <;> cases m'.routines[i']? <;> intro hr <;> cases hr
  · exact .none
  · exact .some (Interchangeable.symm ‹_›)

end lifting

end StackCompiler.Machine
