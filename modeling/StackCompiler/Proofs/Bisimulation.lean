import StackCompiler.Proofs.Machine

/-! When two pieces of code cannot be told apart.
A routine shows itself only in its calls, its return and its failures; the steps between them are
silent. Two configurations are bisimilar if they come to the same action on the same store, and are
bisimilar again whatever a call gives back. A simulation needs to match only some of the states on
the way, and a rank rules out that one side runs on while the other stands still. -/
namespace StackCompiler.Machine

inductive Steps (o : Operations) (code : Code) : Nat → Config → Store → Config → Store → Prop
  | refl (c : Config) (s : Store) : Steps o code 0 c s c s
  | succ {n : Nat} {c d e : Config} {s t u : Store} :
    step o code c s = .next d t → Steps o code n d t e u → Steps o code (n + 1) c s e u

def Action.isSilent : Action → Bool
  | .next .. => true
  | _ => false

/-- After so many silent steps the routine stands in a configuration and is about to do something
that shows. -/
def StopsIn (o : Operations) (code : Code) (n : Nat) (c : Config) (s : Store) (d : Config)
    (a : Action) (t : Store) : Prop :=
  Steps o code n c s d t ∧ step o code d t = a ∧ a.isSilent = false

def Stops (o : Operations) (code : Code) (c : Config) (s : Store) (d : Config) (a : Action)
    (t : Store) : Prop :=
  ∃ n, StopsIn o code n c s d a t

/-- After so many silent steps the routine is about to do something that shows. -/
def MeetsIn (o : Operations) (code : Code) (n : Nat) (c : Config) (s : Store) (a : Action)
    (t : Store) : Prop :=
  ∃ d, Steps o code n c s d t ∧ step o code d t = a ∧ a.isSilent = false

def Meets (o : Operations) (code : Code) (c : Config) (s : Store) (a : Action) (t : Store) : Prop :=
  ∃ n, MeetsIn o code n c s a t

section steps

variable {o : Operations} {code code' : Code}

theorem step_of_getElem? {c : Config} {s : Store} {i : Instr} (hi : code[c.pc]? = some i) :
    step o code c s = follow code c s (exec o c.slots s c.stack i) := by
  simp [step,hi]

theorem step_of_end {c : Config} {s : Store} (h : code[c.pc]? = none) :
    step o code c s = .trap := by
  simp [step,h]

theorem Steps.go {n : Nat} {c d : Config} {s t u : Store} {i : Instr} {stack : List Value}
    {assigned : Option (Slot × Value)} (hi : code[c.pc]? = some i)
    (he : exec o c.slots s c.stack i = .go stack assigned t)
    (hrest : Steps o code n ⟨c.pc + 1,stack,assign c.slots assigned⟩ t d u) :
    Steps o code (n + 1) c s d u := by
  refine .succ ?_ hrest
  rw [step_of_getElem? hi,he]
  rfl

theorem Steps.one {c d : Config} {s t : Store} (h : step o code c s = .next d t) :
    Steps o code 1 c s d t :=
  .succ h (.refl d t)

theorem Steps.trans {n m : Nat} {c d e : Config} {s t u : Store}
    (h₁ : Steps o code n c s d t) (h₂ : Steps o code m d t e u) :
    Steps o code (n + m) c s e u := by
  induction h₁ with
  | refl => simpa using h₂
  | succ hs _ ih => rw [Nat.add_right_comm]; exact .succ hs (ih h₂)

theorem Steps.meetsIn {n m : Nat} {c d : Config} {s t u : Store} {a : Action}
    (h₁ : Steps o code n c s d t) (h₂ : MeetsIn o code m d t a u) :
    MeetsIn o code (n + m) c s a u := by
  obtain ⟨e,he,ha⟩ := h₂
  exact ⟨e,h₁.trans he,ha⟩

theorem Steps.meets {n : Nat} {c d : Config} {s t u : Store} {a : Action}
    (h₁ : Steps o code n c s d t) (h₂ : Meets o code d t a u) : Meets o code c s a u := by
  obtain ⟨m,hm⟩ := h₂
  exact ⟨n + m,h₁.meetsIn hm⟩

theorem meets_now {c : Config} {s : Store} {a : Action} (h : step o code c s = a)
    (ha : a.isSilent = false) : Meets o code c s a s :=
  ⟨0,c,.refl c s,h,ha⟩

theorem stops_now {c : Config} {s : Store} {a : Action} (h : step o code c s = a)
    (ha : a.isSilent = false) : Stops o code c s c a s :=
  ⟨0,.refl c s,h,ha⟩

theorem Steps.stops {n : Nat} {c d e : Config} {s t u : Store} {a : Action}
    (h₁ : Steps o code n c s d t) (h₂ : Stops o code d t e a u) : Stops o code c s e a u := by
  obtain ⟨m,he,ha⟩ := h₂
  exact ⟨n + m,h₁.trans he,ha⟩

theorem Stops.meets {c d : Config} {s t : Store} {a : Action} (h : Stops o code c s d a t) :
    Meets o code c s a t := by
  obtain ⟨n,hn⟩ := h
  exact ⟨n,d,hn⟩

/-- The machine is deterministic: silent steps lie on the way to what shows. -/
theorem Steps.stopsIn_sub {n m : Nat} {c d e : Config} {s t u : Store} {a : Action}
    (h₁ : Steps o code n c s d t) (h₂ : StopsIn o code m c s e a u) :
    n ≤ m ∧ StopsIn o code (m - n) d t e a u := by
  induction h₁ generalizing m with
  | refl => exact ⟨Nat.zero_le _,by simpa using h₂⟩
  | succ hs _ ih =>
    obtain ⟨he,ha,hq⟩ := h₂
    cases he with
    | refl => rw [hs] at ha; subst ha; simp [Action.isSilent] at hq
    | succ hs' hr =>
      rw [hs] at hs'
      obtain ⟨rfl,rfl⟩ := Action.next.inj hs'
      obtain ⟨hl,hm⟩ := ih ⟨hr,ha,hq⟩
      exact ⟨by omega,by rwa [Nat.add_sub_add_right]⟩

theorem StopsIn.unique {n m : Nat} {c d e : Config} {s t u : Store} {a b : Action}
    (h₁ : StopsIn o code n c s d a t) (h₂ : StopsIn o code m c s e b u) : d = e ∧ a = b ∧ t = u := by
  obtain ⟨hd,ha,hq⟩ := h₁
  obtain ⟨_,he,hb,_⟩ := hd.stopsIn_sub h₂
  generalize m - n = k at he
  cases he with
  | refl => exact ⟨rfl,ha.symm.trans hb,rfl⟩
  | succ hs _ => rw [ha] at hs; subst hs; simp [Action.isSilent] at hq

end steps

/-- The same action; after a call both sides go on in related ways. -/
def Action.Matches (R : Config → Config → Store → Prop) : Action → Action → Prop
  | .call target args returns c, .call target' args' returns' c' =>
    target = target' ∧ args = args' ∧ returns = returns' ∧
      ∀ v d s, c.resume returns v = some d → ∃ d', c'.resume returns v = some d' ∧ R d d' s
  | .ret v, .ret v' => v = v'
  | .trap, .trap => True
  | .underflow, .underflow => True
  | _, _ => False

theorem Action.Matches.mono {R Q : Config → Config → Store → Prop} {a b : Action}
    (h : a.Matches R b) (hRQ : ∀ c d s, R c d s → Q c d s) : a.Matches Q b := by
  cases a <;> cases b <;> simp only [Matches] at h ⊢
  · obtain ⟨ht,ha,hr,hk⟩ := h
    refine ⟨ht,ha,hr,?_⟩
    intro v d s hd
    obtain ⟨d',hd',hR⟩ := hk v d s hd
    exact ⟨d',hd',hRQ _ _ _ hR⟩
  · exact h

theorem Action.Matches.isSilent {R : Config → Config → Store → Prop} {a b : Action}
    (h : a.Matches R b) : b.isSilent = false := by
  cases a <;> cases b <;> first | rfl | exact h.elim

theorem Config.resume_isSome (c d : Config) (returns : Bool) (v : Option Value) :
    (c.resume returns v).isSome = (d.resume returns v).isSome := by
  cases returns <;> cases v <;> rfl

theorem Action.Matches.symm {R : Config → Config → Store → Prop} {a b : Action}
    (h : a.Matches R b) : b.Matches (fun c d s => R d c s) a := by
  cases a <;> cases b <;> simp only [Matches] at h ⊢
  case call.call target args returns c target' args' returns' c' =>
    obtain ⟨rfl,rfl,rfl,hk⟩ := h
    refine ⟨rfl,rfl,rfl,?_⟩
    intro v d s hd
    have hs := Config.resume_isSome c c' returns v
    rw [hd] at hs
    obtain ⟨e,he⟩ := Option.isSome_iff_exists.mp hs
    obtain ⟨d',hd',hR⟩ := hk v e s he
    rw [hd] at hd'
    obtain rfl := Option.some.inj hd'
    exact ⟨e,he,hR⟩
  case ret.ret => exact h.symm

theorem Action.Matches.trans {R Q : Config → Config → Store → Prop} {a b e : Action}
    (h₁ : a.Matches R b) (h₂ : b.Matches Q e) :
    a.Matches (fun c d s => ∃ x, R c x s ∧ Q x d s) e := by
  cases a <;> cases b <;> simp only [Matches] at h₁ <;> cases e <;> simp only [Matches] at h₂ ⊢
  · obtain ⟨rfl,rfl,rfl,hk⟩ := h₁
    obtain ⟨rfl,rfl,rfl,hk'⟩ := h₂
    refine ⟨rfl,rfl,rfl,?_⟩
    intro v d s hd
    obtain ⟨x,hx,hR⟩ := hk v d s hd
    obtain ⟨y,hy,hQ⟩ := hk' v x s hx
    exact ⟨y,hy,x,hR,hQ⟩
  · exact h₁.trans h₂

/-- Whatever the first code comes to, the second comes to as well. -/
def Simulates (o : Operations) (code code' : Code) (R : Config → Config → Store → Prop) : Prop :=
  ∀ c c' s, R c c' s → ∀ a t, Meets o code c s a t →
    ∃ a', Meets o code' c' s a' t ∧ a.Matches R a'

structure Bisimulation (o : Operations) (code code' : Code)
    (R : Config → Config → Store → Prop) : Prop where
  forth : Simulates o code code' R
  back : Simulates o code' code fun c' c s => R c c' s

def Bisimilar (o : Operations) (code code' : Code) (c c' : Config) (s : Store) : Prop :=
  ∃ R, Bisimulation o code code' R ∧ R c c' s

namespace Bisimilar

variable {o : Operations} {code code' code'' : Code} {c c' c'' : Config} {s : Store}

theorem refl (o : Operations) (code : Code) (c : Config) (s : Store) :
    Bisimilar o code code c c s := by
  have hs : Simulates o code code fun c c' _ => c = c' := by
    rintro c _ s rfl a t h
    refine ⟨a,h,?_⟩
    cases a <;> simp [Action.Matches]
    obtain ⟨_,_,_,_,hq⟩ := h
    simp [Action.isSilent] at hq
  refine ⟨fun c c' _ => c = c',⟨hs,?_⟩,rfl⟩
  simpa only [eq_comm] using hs

theorem symm (h : Bisimilar o code code' c c' s) : Bisimilar o code' code c' c s := by
  obtain ⟨R,⟨hf,hb⟩,hR⟩ := h
  exact ⟨fun c' c s => R c c' s,⟨hb,hf⟩,hR⟩

theorem simulates_trans {R Q : Config → Config → Store → Prop} (hR : Simulates o code code' R)
    (hQ : Simulates o code' code'' Q) :
    Simulates o code code'' fun c d s => ∃ x, R c x s ∧ Q x d s := by
  rintro c d s ⟨x,hcx,hxd⟩ a t h
  obtain ⟨b,hb,hab⟩ := hR c x s hcx a t h
  obtain ⟨e,he,hbe⟩ := hQ x d s hxd b t hb
  exact ⟨e,he,hab.trans hbe⟩

theorem trans (h₁ : Bisimilar o code code' c c' s) (h₂ : Bisimilar o code' code'' c' c'' s) :
    Bisimilar o code code'' c c'' s := by
  obtain ⟨R,⟨hf,hb⟩,hR⟩ := h₁
  obtain ⟨Q,⟨hf',hb'⟩,hQ⟩ := h₂
  refine ⟨fun c d s => ∃ x, R c x s ∧ Q x d s,⟨simulates_trans hf hf',?_⟩,c',hR,hQ⟩
  intro c d s hcd a t h
  obtain ⟨e,he,hm⟩ := simulates_trans hb' hb c d s (by simpa only [and_comm] using hcd) a t h
  exact ⟨e,he,hm.mono fun _ _ _ ⟨x,h₁,h₂⟩ => ⟨x,h₂,h₁⟩⟩

theorem meets (h : Bisimilar o code code' c c' s) {a : Action} {t : Store}
    (ha : Meets o code c s a t) :
    ∃ a', Meets o code' c' s a' t ∧ a.Matches (Bisimilar o code code') a' := by
  obtain ⟨R,hR,hc⟩ := h
  obtain ⟨a',ha',hm⟩ := hR.forth c c' s hc a t ha
  exact ⟨a',ha',hm.mono fun c d s hcd => ⟨R,hR,hcd⟩⟩

end Bisimilar

/-- From related states both sides run on to related states, the first by at least one step, the
second perhaps by none but then the rank falls; or both come to the same action, with slots that look
alike. Where that is excused, the first side may also find too few values on its stack. -/
def Follows (o : Operations) (code code' : Code) (R : Config → Config → Store → Prop) {α : Type}
    (view : (Slot → Value) → α) (excused : Prop) (rank : Config → Nat) (c c' : Config) (s : Store) :
    Prop :=
  (∃ n d t m d', Steps o code (n + 1) c s d t ∧ Steps o code' m c' s d' t ∧ R d d' t ∧
    (0 < m ∨ rank d < rank c)) ∨
  (∃ d a d' a' t, Stops o code c s d a t ∧ Stops o code' c' s d' a' t ∧
    view d.slots = view d'.slots ∧ a.Matches R a') ∨
  excused ∧ ∃ d t, Stops o code c s d .underflow t

section ranked

variable {o : Operations} {code code' : Code} {R : Config → Config → Store → Prop} {α : Type}
  {view : (Slot → Value) → α} {excused : Prop} {rank : Config → Nat} {c c' : Config} {s : Store}

theorem follows_step {d d' : Config} {t : Store} (h : step o code c s = .next d t)
    (h' : step o code' c' s = .next d' t) (hR : R d d' t) :
    Follows o code code' R view excused rank c c' s :=
  .inl ⟨0,d,t,1,d',.one h,.one h',hR,.inl Nat.one_pos⟩

theorem follows_stop {n m : Nat} {d d' : Config} {t : Store} {a a' : Action}
    (hd : Steps o code n c s d t) (hd' : Steps o code' m c' s d' t) (h : step o code d t = a)
    (h' : step o code' d' t = a') (ha : a.isSilent = false) (hview : view d.slots = view d'.slots)
    (hm : a.Matches R a') : Follows o code code' R view excused rank c c' s :=
  .inr (.inl ⟨d,a,d',a',t,hd.stops (stops_now h ha),hd'.stops (stops_now h' hm.isSilent),hview,hm⟩)

theorem follows_now {a a' : Action} (h : step o code c s = a) (h' : step o code' c' s = a')
    (ha : a.isSilent = false) (hview : view c.slots = view c'.slots) (hm : a.Matches R a') :
    Follows o code code' R view excused rank c c' s :=
  follows_stop (.refl c s) (.refl c' s) h h' ha hview hm

/-- Whatever the first side comes to, the second comes to as well. -/
theorem stops_of_follows
    (h : ∀ c c' s, R c c' s → Follows o code code' R view excused rank c c' s) (hR : R c c' s)
    {d : Config} {a : Action} {t : Store} (ha : Stops o code c s d a t) :
    excused ∧ a = .underflow ∨ ∃ d' a', Stops o code' c' s d' a' t ∧
      view d.slots = view d'.slots ∧ a.Matches R a' := by
  obtain ⟨k,ha⟩ := ha
  induction k using Nat.strongRecOn generalizing c c' s with
  | ind k ih =>
    rcases h c c' s hR with ⟨n,e,u,m,e',he,he',hR',_⟩ | ⟨e,b,e',b',u,⟨_,hb⟩,hb',hv,hm⟩ | ⟨hx,e,u,_,hb⟩
    · obtain ⟨hle,hrest⟩ := he.stopsIn_sub ha
      rcases ih (k - (n + 1)) (by omega) hR' hrest with hx | ⟨d',a',ha',hv,hm⟩
      · exact .inl hx
      · exact .inr ⟨d',a',he'.stops ha',hv,hm⟩
    · obtain ⟨rfl,rfl,rfl⟩ := ha.unique hb
      exact .inr ⟨e',b',hb',hv,hm⟩
    · exact .inl ⟨hx,(ha.unique hb).2.1⟩

/-- The way back: the second side's run is followed, and where it stands still the rank falls. -/
theorem stops_back_of_follows
    (h : ∀ c c' s, R c c' s → Follows o code code' R view excused rank c c' s) (hR : R c c' s)
    {d' : Config} {a' : Action} {t : Store} (ha : Stops o code' c' s d' a' t) :
    (excused ∧ ∃ d u, Stops o code c s d .underflow u) ∨ ∃ d a, Stops o code c s d a t ∧
      view d.slots = view d'.slots ∧ a.Matches R a' := by
  obtain ⟨k,ha⟩ := ha
  generalize hr : rank c = r
  induction k using Nat.strongRecOn generalizing r c c' s with
  | ind k ihk =>
    induction r using Nat.strongRecOn generalizing c c' s with
    | ind r ihr =>
      rcases h c c' s hR with ⟨n,e,u,m,e',he,he',hR',hlt⟩ | ⟨e,b,e',b',u,hb,⟨_,hb'⟩,hv,hm⟩ | ⟨hx,hb⟩
      · obtain ⟨hle,hrest⟩ := he'.stopsIn_sub ha
        have hback : (excused ∧ ∃ d u', Stops o code e u d .underflow u') ∨
            ∃ d a, Stops o code e u d a t ∧ view d.slots = view d'.slots ∧ a.Matches R a' := by
          by_cases hm : 0 < m
          · exact ihk (k - m) (by omega) hR' hrest _ rfl
          · obtain rfl : m = 0 := by omega
            exact ihr (rank e) (by omega) hR' (by simpa using hrest) rfl
        rcases hback with ⟨hx,d,u',hd⟩ | ⟨d,a,hd,hv,hmatch⟩
        · exact .inl ⟨hx,d,u',he.stops hd⟩
        · exact .inr ⟨d,a,he.stops hd,hv,hmatch⟩
      · obtain ⟨rfl,rfl,rfl⟩ := ha.unique hb'
        exact .inr ⟨e,b,hb,hv,hm⟩
      · exact .inl ⟨hx,hb⟩

theorem bisimulation_of_follows
    (h : ∀ c c' s, R c c' s → Follows o code code' R view False rank c c' s) :
    Bisimulation o code code' R := by
  refine ⟨?_,?_⟩
  · rintro c c' s hR a t ⟨k,d,hd⟩
    rcases stops_of_follows h hR ⟨k,hd⟩ with ⟨hx,_⟩ | ⟨d',a',ha',_,hm⟩
    · exact hx.elim
    · exact ⟨a',ha'.meets,hm⟩
  · rintro c' c s hR a' t ⟨k,d',hd'⟩
    rcases stops_back_of_follows h hR ⟨k,hd'⟩ with ⟨hx,_⟩ | ⟨d,a,ha,_,hm⟩
    · exact hx.elim
    · exact ⟨a,ha.meets,hm.symm⟩

end ranked

/-- Whatever the calls give back, no instruction ever finds too few values on the stack. -/
def Safe (o : Operations) (code : Code) (c : Config) (s : Store) : Prop :=
  ∃ P : Config → Store → Prop, P c s ∧ ∀ c s, P c s → ∀ a t, Meets o code c s a t →
    a ≠ .underflow ∧ ∀ target args returns k, a = .call target args returns k →
      ∀ v d t, k.resume returns v = some d → P d t

namespace Safe

variable {o : Operations} {code code' : Code} {c c' d : Config} {s t : Store}

theorem step_ne_underflow (h : Safe o code c s) : step o code c s ≠ .underflow := by
  obtain ⟨P,hc,hP⟩ := h
  intro hu
  exact (hP c s hc _ s (meets_now hu rfl)).1 rfl

theorem steps {n : Nat} (h : Safe o code c s) (hs : Steps o code n c s d t) : Safe o code d t := by
  obtain ⟨P,hc,hP⟩ := h
  refine ⟨fun d t => P d t ∨ ∃ n c s, P c s ∧ Steps o code n c s d t,.inr ⟨n,c,s,hc,hs⟩,?_⟩
  rintro d t hd a u ha
  have hm : ∃ c s, P c s ∧ Meets o code c s a u := by
    rcases hd with hd | ⟨n,c,s,hc,hs⟩
    · exact ⟨d,t,hd,ha⟩
    · exact ⟨c,s,hc,hs.meets ha⟩
  obtain ⟨c,s,hc,hm⟩ := hm
  obtain ⟨hne,hcall⟩ := hP c s hc a u hm
  exact ⟨hne,fun target args returns k hk v d t hd => .inl (hcall target args returns k hk v d t hd)⟩

theorem call {target : CallTarget} {args : List Value} {returns : Bool} {k : Config}
    (h : Safe o code c s) (hs : step o code c s = .call target args returns k) {v : Option Value}
    (hd : k.resume returns v = some d) : Safe o code d t := by
  obtain ⟨P,hc,hP⟩ := h
  exact ⟨P,(hP c s hc _ s (meets_now hs rfl)).2 target args returns k rfl v d t hd,hP⟩

/-- Safety is something that bisimilar configurations have in common. -/
theorem bisimilar (h : Safe o code c s) (hb : Bisimilar o code code' c c' s) :
    Safe o code' c' s := by
  refine ⟨fun c' s => ∃ c, Safe o code c s ∧ Bisimilar o code code' c c' s,⟨c,h,hb⟩,?_⟩
  rintro c' s ⟨c,⟨P,hc,hP⟩,hb⟩ a t ha
  obtain ⟨a',ha',hm⟩ := hb.symm.meets ha
  obtain ⟨hne,hcall⟩ := hP c s hc a' t ha'
  refine ⟨?_,?_⟩
  · rintro rfl
    cases a' <;> simp [Action.Matches] at hm hne
  · rintro target args returns k rfl v d u hd
    cases a' with
    | call target' args' returns' k' =>
      obtain ⟨rfl,rfl,rfl,hk⟩ := hm
      obtain ⟨d',hd',hbd⟩ := hk v d u hd
      exact ⟨d',⟨P,hcall _ _ _ _ rfl v d' u hd',hP⟩,hbd.symm⟩
    | _ => simp [Action.Matches] at hm

/-- What safety is good for: a simulation may assume it wherever it starts. -/
theorem follows {R : Config → Config → Store → Prop} {α : Type} {view : (Slot → Value) → α}
    {excused : Prop} {rank : Config → Nat} (hs : Safe o code c s)
    (h : Follows o code code' R view excused rank c c' s) :
    Follows o code code' (fun c c' s => R c c' s ∧ Safe o code c s) view False rank c c' s := by
  rcases h with ⟨n,d,t,m,d',hd,hd',hR,hlt⟩ | ⟨d,a,d',a',t,⟨n,hd,ha,hq⟩,ha',hv,hm⟩ | ⟨_,d,t,n,hd,ha,_⟩
  · exact .inl ⟨n,d,t,m,d',hd,hd',⟨hR,hs.steps hd⟩,hlt⟩
  · refine .inr (.inl ⟨d,a,d',a',t,⟨n,hd,ha,hq⟩,ha',hv,?_⟩)
    have hsafe := hs.steps hd
    cases a <;> cases a' <;> simp only [Action.Matches] at hm ⊢
    · obtain ⟨rfl,rfl,rfl,hk⟩ := hm
      refine ⟨rfl,rfl,rfl,?_⟩
      intro v e u he
      obtain ⟨e',he',hR⟩ := hk v e u he
      exact ⟨e',he',hR,hsafe.call ha he⟩
    · exact hm
  · exact absurd ha (hs.steps hd).step_ne_underflow

end Safe

theorem bisimilar_of_follows {o : Operations} {code code' : Code} {c c' : Config} {s : Store}
    {R : Config → Config → Store → Prop} {α : Type} {view : (Slot → Value) → α} {excused : Prop}
    {rank : Config → Nat}
    (h : ∀ c c' s, R c c' s → Safe o code c s → Follows o code code' R view excused rank c c' s)
    (hR : R c c' s) (hs : Safe o code c s) : Bisimilar o code code' c c' s :=
  ⟨fun c c' s => R c c' s ∧ Safe o code c s,
    bisimulation_of_follows fun c c' s h' => h'.2.follows (h c c' s h'.1 h'.2),hR,hs⟩

end StackCompiler.Machine
