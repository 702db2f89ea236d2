import StackCompiler.Optimize.Window
import StackCompiler.Proofs.ModuleRuns
import StackCompiler.Proofs.Patches

/-! Replacing windows does not change what code does.
Every rule is checked against the machine by itself. A window that ends in a jump to the label right
behind it relies on there being no second label of that number, and taking away a copy that is
dropped at once on the stack not running dry. -/
namespace StackCompiler

namespace Window

/-- A window in front of the given code, and what replaces it. -/
inductive Rule (rest : Code) : Code → Code → Prop
  | binary {op : BinaryOp} {t : BaseType} {x y v : Literal} (h : Folding.binary? op t x y = some v) :
    Rule rest [.const x,.const y,.binary op t] [.const v]
  | convert (n : Int64) : Rule rest [.const (.integer n),.convert] [.const (.double (Literal.toDouble n))]
  | unary {op : UnaryOp} {t : BaseType} {x v : Literal} (h : Folding.unary? op x = some v) :
    Rule rest [.const x,.unary op t] [.const v]
  | loadStore (p : Place) : Rule rest [.load p,.store p] []
  | storeLoad (p : Place) : Rule rest [.store p,.load p] [.dup,.store p]
  | branch {l : Label} (h : rest.head? = some (.label l)) : Rule rest [.branch l] []
  | branchIf {flag : Bool} {l : Label} (h : rest.head? = some (.label l)) :
    Rule rest [.branchIf flag l] [.pop]
  | taken (v : Bool) (l : Label) : Rule rest [.const (.boolean v),.branchIf v l] [.branch l]
  | passed {v flag : Bool} (h : v ≠ flag) (l : Label) :
    Rule rest [.const (.boolean v),.branchIf flag l] []
  | constPop (x : Literal) : Rule rest [.const x,.pop] []
  | loadPop (p : Place) : Rule rest [.load p,.pop] []
  | dupPop : Rule rest [.dup,.pop] []

theorem rule?_eq_some {code replacement : Code} {n : Nat} (h : rule? code = some (n,replacement)) :
    ∃ window rest, code = window ++ rest ∧ window.length = n ∧ Rule rest window replacement := by
  unfold rule? at h
  split at h
  · obtain ⟨v,hv,he⟩ := Option.map_eq_some_iff.mp h
    cases he
    exact ⟨[_,_,_],_,rfl,rfl,.binary hv⟩
  · cases h
    exact ⟨[_,_],_,rfl,rfl,.convert _⟩
  · obtain ⟨v,hv,he⟩ := Option.map_eq_some_iff.mp h
    cases he
    exact ⟨[_,_],_,rfl,rfl,.unary hv⟩
  · split at h
    · next heq =>
      cases h
      subst heq
      exact ⟨[_,_],_,rfl,rfl,.loadStore _⟩
    · cases h
  · split at h
    · next heq =>
      cases h
      subst heq
      exact ⟨[_,_],_,rfl,rfl,.storeLoad _⟩
    · cases h
  · split at h
    · next heq =>
      cases h
      subst heq
      exact ⟨[_],_,rfl,rfl,.branch rfl⟩
    · cases h
  · split at h
    · next heq =>
      cases h
      subst heq
      exact ⟨[_],_,rfl,rfl,.branchIf rfl⟩
    · cases h
  · next v flag l rest =>
    by_cases heq : v = flag
    · subst heq
      simp only [if_true,Option.some.injEq,Prod.mk.injEq] at h
      obtain ⟨rfl,rfl⟩ := h
      exact ⟨[_,_],_,rfl,rfl,.taken v l⟩
    · simp only [heq,if_false,Option.some.injEq,Prod.mk.injEq] at h
      obtain ⟨rfl,rfl⟩ := h
      exact ⟨[_,_],_,rfl,rfl,.passed heq l⟩
  · cases h
    exact ⟨[_,_],_,rfl,rfl,.constPop _⟩
  · cases h
    exact ⟨[_,_],_,rfl,rfl,.loadPop _⟩
  · cases h
    exact ⟨[_,_],_,rfl,rfl,.dupPop⟩
  · cases h

/-- Every window of a pass is one that a rule replaces where it stands. -/
theorem rule_of_segments {n : Nat} {code window replacement : Code} {before after : List Segment}
    (h : segments n code = before ++ .replaced window replacement :: after) :
    Rule (after.flatMap Segment.source) window replacement := by
  induction code generalizing n before with
  | nil => simp [segments] at h
  | cons i rest ih =>
    cases n with
    | succ n => exact ih h
    | zero =>
      rw [segments] at h
      split at h
      · next m r hrule =>
        cases before with
        | cons x before => exact ih (List.cons.inj h).2
        | nil =>
          obtain ⟨hhead,htail⟩ := List.cons.inj h
          obtain ⟨rfl,rfl⟩ := Segment.replaced.inj hhead
          obtain ⟨window,after',hcode,hlen,hr⟩ := rule?_eq_some hrule
          have hm : m - 1 + 1 = m := Nat.sub_add_cancel (rule?_bounds hrule).1
          rw [← htail,flatMap_source_segments,← List.drop_succ_cons (a := i),hm,hcode,← hlen,
            List.take_left,List.drop_left]
          exact hr
      · cases before with
        | cons x before => exact ih (List.cons.inj h).2
        | nil => cases (List.cons.inj h).1

def patches (code : Code) : List Patch := (segments 0 code).map fun x => ⟨x.source,x.code⟩

theorem sources_patches (code : Code) : Patch.sources (patches code) = code := by
  have h := flatMap_source_segments 0 code
  rw [List.drop_zero] at h
  rw [Patch.sources,patches,List.flatMap_map]
  exact h

theorem targets_patches (code : Code) :
    Patch.targets (patches code) = ((segments 0 code).map Segment.code).flatten := by
  rw [Patch.targets,patches,List.flatMap_map,List.flatMap_def]

theorem Rule.carries {rest window replacement : Code} (h : Rule rest window replacement) :
    Patch.Carries ⟨window,replacement⟩ := by
  refine .inr ?_
  cases h <;> exact ⟨rfl,rfl⟩

/-- A piece stays, or a rule replaces it in front of the rest. -/
theorem patches_cases {code : Code} {before after : List Patch} {p : Patch}
    (h : patches code = before ++ p :: after) :
    (∃ i, p = Patch.keep i) ∨ Rule (Patch.sources after) p.source p.target := by
  obtain ⟨xs,ys,hsplit,_,hys⟩ := List.map_eq_append_iff.mp h
  obtain ⟨x,zs,rfl,rfl,rfl⟩ := List.map_eq_cons_iff.mp hys
  cases x with
  | kept i => exact .inl ⟨i,rfl⟩
  | replaced window replacement =>
    have hr := rule_of_segments hsplit
    rw [Patch.sources,List.flatMap_map]
    exact .inr hr

theorem carries_patches (code : Code) : ∀ p ∈ patches code, p.Carries := by
  intro p hp
  obtain ⟨before,after,hsplit⟩ := List.append_of_mem hp
  rcases patches_cases hsplit with ⟨i,rfl⟩ | hrule
  · exact Patch.carries_keep i
  · exact hrule.carries

end Window

namespace Machine

open Window

theorem assign_read_self (slots : Slot → Value) (s : Store) (p : Place) :
    assign slots (write s (read slots s p) p).1 = slots ∧ (write s (read slots s p) p).2 = s := by
  cases p with
  | slot n => simp [read,write,assign]
  | global name => simp [read,write,assign]

/-- Two stretches of code that do the same to a stack, slots and a store. -/
def SameEffect (o : Operations) (a b : Code) (stack : List Value) (slots : Slot → Value)
    (s : Store) : Prop :=
  ∀ code code' pc pc', Code.Has code pc a → Code.Has code' pc' b →
    ∃ n m stack₁ slots₁ t, Steps o code (n + 1) ⟨pc,stack,slots⟩ s ⟨pc + a.length,stack₁,slots₁⟩ t ∧
      Steps o code' m ⟨pc',stack,slots⟩ s ⟨pc' + b.length,stack₁,slots₁⟩ t

section rules

variable {o : Operations} {stack : List Value} {slots : Slot → Value} {s : Store}

theorem sameEffect_binary (ho : o.Lawful) {op : BinaryOp} {t : BaseType} {x y v : Literal}
    (h : Folding.binary? op t x y = some v) :
    SameEffect o [.const x,.const y,.binary op t] [.const v] stack slots s := by
  intro code code' pc pc' ha hb
  obtain ⟨h₁,ha⟩ := Code.has_cons.mp ha
  obtain ⟨h₂,ha⟩ := Code.has_cons.mp ha
  obtain ⟨h₃,_⟩ := Code.has_cons.mp ha
  obtain ⟨h₁',_⟩ := Code.has_cons.mp hb
  have hvalue : exec o slots s (.scalar y :: .scalar x :: stack) (.binary op t) =
      .go (.scalar v :: stack) none s := by
    simp [exec,ho.binary h,Effect.push]
  exact ⟨2,1,_,slots,s,.go h₁ rfl (.go h₂ rfl (.go h₃ hvalue (.refl _ _))),.go h₁' rfl (.refl _ _)⟩

theorem sameEffect_const {x v : Literal} {i : Instr}
    (h : exec o slots s (.scalar x :: stack) i = .go (.scalar v :: stack) none s) :
    SameEffect o [.const x,i] [.const v] stack slots s := by
  intro code code' pc pc' ha hb
  obtain ⟨h₁,ha⟩ := Code.has_cons.mp ha
  obtain ⟨h₂,_⟩ := Code.has_cons.mp ha
  obtain ⟨h₁',_⟩ := Code.has_cons.mp hb
  exact ⟨1,1,_,slots,s,.go h₁ rfl (.go h₂ h (.refl _ _)),.go h₁' rfl (.refl _ _)⟩

theorem sameEffect_nothing {i j : Instr} {stack₁ : List Value}
    (hi : exec o slots s stack i = .go stack₁ none s)
    (hj : ∃ assigned, exec o slots s stack₁ j = .go stack assigned s ∧ assign slots assigned = slots) :
    SameEffect o [i,j] [] stack slots s := by
  intro code code' pc pc' ha _
  obtain ⟨h₁,ha⟩ := Code.has_cons.mp ha
  obtain ⟨h₂,_⟩ := Code.has_cons.mp ha
  obtain ⟨assigned,hj,hassign⟩ := hj
  have hsteps : Steps o code 2 ⟨pc,stack,slots⟩ s ⟨pc + 2,stack,assign slots assigned⟩ s :=
    .go h₁ hi (.go h₂ hj (.refl _ _))
  rw [hassign] at hsteps
  exact ⟨1,0,stack,slots,s,hsteps,.refl _ _⟩

theorem sameEffect_loadStore (p : Place) : SameEffect o [.load p,.store p] [] stack slots s := by
  obtain ⟨hslots,hs⟩ := assign_read_self slots s p
  refine sameEffect_nothing rfl ⟨_,?_,hslots⟩
  simp only [exec,hs]

theorem sameEffect_storeLoad (p : Place) (v : Value) :
    SameEffect o [.store p,.load p] [.dup,.store p] (v :: stack) slots s := by
  intro code code' pc pc' ha hb
  obtain ⟨h₁,ha⟩ := Code.has_cons.mp ha
  obtain ⟨h₂,_⟩ := Code.has_cons.mp ha
  obtain ⟨h₁',hb⟩ := Code.has_cons.mp hb
  obtain ⟨h₂',_⟩ := Code.has_cons.mp hb
  have hload : exec o (assign slots (write s v p).1) (write s v p).2 stack (.load p) =
      .go (v :: stack) none (write s v p).2 := by
    simp only [exec,read_write]
  exact ⟨1,2,_,_,_,.go h₁ rfl (.go h₂ hload (.refl _ _)),.go h₁' rfl (.go h₂' rfl (.refl _ _))⟩

variable {ps before after : List Patch} {window replacement : Code} {c c' : Config}

theorem SameEffect.follows (h : SameEffect o window replacement c.stack c.slots s)
    (hsplit : ps = before ++ ⟨window,replacement⟩ :: after) (hne : 0 < window.length)
    (hpc : c.pc = (Patch.sources before).length) (hpc' : c'.pc = (Patch.targets before).length)
    (hstack : c'.stack = c.stack) (hslots : c'.slots = c.slots) :
    Follows o (Patch.sources ps) (Patch.targets ps) (fun c c' _ => Between ps (fun _ => True) c c') id
      True (fun c => (Patch.sources ps).length - c.pc) c c' s := by
  have hsource : (Patch.sources ps).Has c.pc window := by
    rw [hsplit,hpc]
    simpa using Code.has_split _ _ _
  have htarget : (Patch.targets ps).Has c'.pc replacement := by
    rw [hsplit,hpc']
    simpa using Code.has_split _ _ _
  obtain ⟨n,m,stack₁,slots₁,t,hd,hd'⟩ := h _ _ _ _ hsource htarget
  rw [← hstack,← hslots] at hd'
  exact follows_through hsplit trivial hpc hpc' hd hd' rfl rfl hne rfl rfl

theorem target?_of_next (hnodup : (Patch.sources ps).labels.Nodup) {i : Instr} {l : Label}
    (hsplit : ps = before ++ ⟨[i],replacement⟩ :: after)
    (hl : (Patch.sources after).head? = some (.label l))
    (hpc : c.pc = (Patch.sources before).length) :
    target? l (Patch.sources ps) = some (c.pc + 1) := by
  refine target?_of_nodup hnodup ?_
  rw [hsplit,hpc]
  simpa [List.getElem?_append_right,List.head?_eq_getElem?] using hl

/-- A rule that matches where both sides stand before its window. Only a copy that is dropped at once
needs a value on the stack that its replacement does not. -/
theorem follows_rule (ho : o.Lawful) (hps : ∀ p ∈ ps, p.Carries)
    (hnodup : (Patch.sources ps).labels.Nodup)
    (hsplit : ps = before ++ ⟨window,replacement⟩ :: after)
    (hrule : Rule (Patch.sources after) window replacement)
    (hpc : c.pc = (Patch.sources before).length) (hpc' : c'.pc = (Patch.targets before).length)
    (hstack : c'.stack = c.stack) (hslots : c'.slots = c.slots) :
    Follows o (Patch.sources ps) (Patch.targets ps) (fun c c' _ => Between ps (fun _ => True) c c') id
      True (fun c => (Patch.sources ps).length - c.pc) c c' s := by
  have hsource : (Patch.sources ps).Has c.pc window := by
    rw [hsplit,hpc]
    simpa using Code.has_split _ _ _
  have htarget : (Patch.targets ps).Has c'.pc replacement := by
    rw [hsplit,hpc']
    simpa using Code.has_split _ _ _
  have hsame : SameEffect o window replacement c.stack c.slots s → 0 < window.length → _ :=
    fun h hne => h.follows hsplit hne hpc hpc' hstack hslots
  cases hrule with
  | binary h => exact hsame (sameEffect_binary ho h) (Nat.zero_lt_succ _)
  | convert n =>
    refine hsame (sameEffect_const ?_) (Nat.zero_lt_succ _)
    simp [exec,ho.convert,Effect.push]
  | unary h =>
    refine hsame (sameEffect_const ?_) (Nat.zero_lt_succ _)
    simp [exec,ho.unary h,Effect.push]
  | loadStore p => exact hsame (sameEffect_loadStore p) (Nat.zero_lt_succ _)
  | constPop x => exact hsame (sameEffect_nothing rfl ⟨none,rfl,rfl⟩) (Nat.zero_lt_succ _)
  | loadPop p => exact hsame (sameEffect_nothing rfl ⟨none,rfl,rfl⟩) (Nat.zero_lt_succ _)
  | passed hne l =>
    refine hsame (sameEffect_nothing rfl ⟨none,?_,rfl⟩) (Nat.zero_lt_succ _)
    simp [exec,hne]
  | dupPop =>
    obtain ⟨h₁,_⟩ := Code.has_cons.mp hsource
    cases hst : c.stack with
    | nil =>
      have hstep := step_of_getElem? (o := o) (s := s) h₁
      rw [hst] at hstep
      exact .inr (.inr ⟨trivial,c,s,stops_now hstep rfl⟩)
    | cons v rest =>
      refine hsame ?_ (Nat.zero_lt_succ _)
      rw [hst]
      exact sameEffect_nothing rfl ⟨none,rfl,rfl⟩
  | storeLoad p =>
    cases hst : c.stack with
    | nil =>
      obtain ⟨h₁,_⟩ := Code.has_cons.mp hsource
      obtain ⟨h₁',_⟩ := Code.has_cons.mp htarget
      have hstep := step_of_getElem? (o := o) (s := s) h₁
      have hstep' := step_of_getElem? (o := o) (s := s) h₁'
      rw [hst] at hstep
      rw [hstack,hst] at hstep'
      exact follows_now hstep hstep' rfl hslots.symm trivial
    | cons v rest =>
      refine hsame ?_ (Nat.zero_lt_succ _)
      rw [hst]
      exact sameEffect_storeLoad p v
  | branch hl =>
    obtain ⟨h₁,_⟩ := Code.has_cons.mp hsource
    have hstep := step_of_getElem? (o := o) (s := s) h₁
    simp only [exec,follow,target?_of_next hnodup hsplit hl hpc] at hstep
    exact follows_through hsplit trivial hpc hpc' (.one hstep) (.refl c' s) rfl rfl
      (Nat.zero_lt_succ _) hstack hslots
  | branchIf hl =>
    obtain ⟨h₁,_⟩ := Code.has_cons.mp hsource
    obtain ⟨h₁',_⟩ := Code.has_cons.mp htarget
    have hstep := step_of_getElem? (o := o) (s := s) h₁
    have hstep' := step_of_getElem? (o := o) (s := s) h₁'
    cases hst : c.stack with
    | nil =>
      rw [hst] at hstep
      rw [hstack,hst] at hstep'
      exact follows_now hstep hstep' rfl hslots.symm trivial
    | cons v rest =>
      rw [hstack,hst] at hstep'
      have hnext : step o (Patch.sources ps) c s = .next ⟨c.pc + 1,rest,c.slots⟩ s := by
        rw [hstep,hst]
        simp only [exec]
        split
        · simp only [follow,target?_of_next hnodup hsplit hl hpc]
        · rfl
      exact follows_through hsplit trivial hpc hpc' (.one hnext) (.one hstep') rfl rfl
        (Nat.zero_lt_succ _) rfl hslots
  | taken v l =>
    obtain ⟨h₁,hsource⟩ := Code.has_cons.mp hsource
    obtain ⟨h₂,_⟩ := Code.has_cons.mp hsource
    obtain ⟨h₁',_⟩ := Code.has_cons.mp htarget
    have hstep' := step_of_getElem? (o := o) (s := s) h₁'
    rw [hstack] at hstep'
    have hjump : step o (Patch.sources ps) ⟨c.pc + 1,.scalar (.boolean v) :: c.stack,c.slots⟩ s =
        follow (Patch.sources ps) ⟨c.pc + 1,.scalar (.boolean v) :: c.stack,c.slots⟩ s
          (.jump l c.stack) := by
      rw [step_of_getElem? h₂]
      simp [exec]
    exact follows_jump hps (fun _ _ => trivial) (.go h₁ rfl (.refl _ _)) (.refl c' s) hjump hstep'
      hslots

end rules

section passes

variable {o : Operations} {code : Code} {c c' : Config} {s : Store}

theorem follows_windows (ho : o.Lawful) (hnodup : code.labels.Nodup)
    (h : Between (patches code) (fun _ => True) c c') :
    Follows o code (Patch.targets (patches code))
      (fun c c' _ => Between (patches code) (fun _ => True) c c') id True
      (fun c => code.length - c.pc) c c' s := by
  have hcode := sources_patches code
  have hpieces := follows_patches (o := o) (s := s) True ?_ h
  · simpa only [hcode] using hpieces
  intro before p after c c' s hsplit _ hbefore hbefore' hstack hslots
  rcases patches_cases hsplit with ⟨i,rfl⟩ | hrule
  · exact follows_keep (carries_patches code) (fun _ _ => trivial) hsplit (fun _ => trivial)
      hbefore hbefore' hstack hslots
  · exact follows_rule ho (carries_patches code) (hcode.symm ▸ hnodup) hsplit hrule hbefore
      hbefore' hstack hslots

theorem bisimilar_segments (ho : o.Lawful) (hnodup : code.labels.Nodup) (hpc : c.pc = 0)
    (hsafe : Safe o code c s) :
    Bisimilar o code ((segments 0 code).map Segment.code).flatten c c s := by
  rw [← targets_patches]
  exact bisimilar_of_follows (fun _ _ _ h _ => follows_windows ho hnodup h)
    (between_start trivial hpc) hsafe

end passes

end Machine

namespace Window

def reaching : Bool → Code → List Patch
  | _, [] => []
  | live, i :: rest =>
    if live || isLabel i then Patch.keep i :: reaching (!i.endsFlow) rest
    else ⟨[i],[]⟩ :: reaching false rest

theorem sources_reaching (live : Bool) (code : Code) : Patch.sources (reaching live code) = code := by
  induction code generalizing live with
  | nil => rfl
  | cons i rest ih =>
    rw [reaching]
    split
    · exact congrArg (i :: ·) (ih _)
    · exact congrArg (i :: ·) (ih _)

theorem targets_reaching (live : Bool) (code : Code) :
    Patch.targets (reaching live code) = reachable live code := by
  induction code generalizing live with
  | nil => rfl
  | cons i rest ih =>
    rw [reaching,reachable]
    split
    · exact congrArg (i :: ·) (ih _)
    · exact ih _

def Stays (ps : List Patch) : Prop := ∀ p ∈ ps.head?, ∃ i, p = Patch.keep i

theorem stays_reaching (code : Code) : Stays (reaching true code) := by
  intro p hp
  cases code with
  | nil => cases hp
  | cons i rest => exact ⟨i,(Option.some.inj hp).symm⟩

theorem reaching_cases {live : Bool} {code : Code} {before after : List Patch} {p : Patch}
    (h : reaching live code = before ++ p :: after) :
    (∃ i, p = Patch.keep i ∧ (i.endsFlow = false → Stays after)) ∨
      ∃ i, isLabel i = false ∧ p = ⟨[i],[]⟩ := by
  induction code generalizing live before with
  | nil => simp [reaching] at h
  | cons i rest ih =>
    rw [reaching] at h
    cases before with
    | cons x before =>
      split at h
      · exact ih (List.cons.inj h).2
      · exact ih (List.cons.inj h).2
    | nil =>
      split at h
      · obtain ⟨rfl,rfl⟩ := List.cons.inj h
        refine .inl ⟨i,rfl,fun hflow => ?_⟩
        rw [hflow]
        exact stays_reaching rest
      · next hdead =>
        obtain ⟨rfl,_⟩ := List.cons.inj h
        exact .inr ⟨i,by simpa using (not_or.mp (mt Bool.or_eq_true_iff.mpr hdead)).2,rfl⟩

theorem carries_reaching (live : Bool) (code : Code) : ∀ p ∈ reaching live code, p.Carries := by
  intro p hp
  obtain ⟨before,after,hsplit⟩ := List.append_of_mem hp
  rcases reaching_cases hsplit with ⟨i,rfl,_⟩ | ⟨i,hi,rfl⟩
  · exact Patch.carries_keep i
  · cases i with
    | label => cases hi
    | _ => exact .inr ⟨rfl,rfl⟩

end Window

namespace Machine

open Window

section passes

variable {o : Operations} {code : Code} {c c' : Config} {s : Store}

/-- Dropping what control cannot reach, followed from instruction to instruction. -/
theorem follows_reaching (excused : Prop) (h : Between (reaching true code) Stays c c') :
    Follows o code (reachable true code) (fun c c' _ => Between (reaching true code) Stays c c') id
      excused (fun c => code.length - c.pc) c c' s := by
  have hcode := sources_reaching true code
  have hlabel : ∀ l after, Stays (Patch.keep (.label l) :: after) := fun l after p hp =>
    ⟨.label l,(Option.some.inj hp).symm⟩
  have hpieces := follows_patches (o := o) (s := s) excused ?_ h
  · simpa only [hcode,targets_reaching] using hpieces
  intro before p after c c' s hsplit hstays hbefore hbefore' hstack hslots
  obtain ⟨j,rfl⟩ := hstays p rfl
  rcases reaching_cases hsplit with ⟨i,hi,hnext⟩ | ⟨i,_,hi⟩
  · cases hi
    exact follows_keep (carries_reaching true code) hlabel hsplit hnext hbefore hbefore' hstack
      hslots
  · cases hi

theorem bisimilar_reachable (hpc : c.pc = 0) (hsafe : Safe o code c s) :
    Bisimilar o code (reachable true code) c c s :=
  bisimilar_of_follows (fun _ _ _ h _ => follows_reaching False h)
    (between_start (stays_reaching code) hpc) hsafe

theorem labels_pass (code : Code) :
    (reachable true ((segments 0 code).map Segment.code).flatten).labels = code.labels := by
  have hreach := Patch.labels_targets
    (carries_reaching true ((segments 0 code).map Segment.code).flatten)
  have hseg := Patch.labels_targets (carries_patches code)
  rw [targets_reaching,sources_reaching] at hreach
  rw [targets_patches,sources_patches] at hseg
  exact hreach.trans hseg

theorem bisimilar_passes (ho : o.Lawful) (n : Nat) (hnodup : code.labels.Nodup) (hpc : c.pc = 0)
    (hsafe : Safe o code c s) : Bisimilar o code (passes n code).code c c s := by
  induction n generalizing code with
  | zero => exact .refl _ _ _ _
  | succ n ih =>
    have hseg := bisimilar_segments ho hnodup hpc hsafe
    have hreach := bisimilar_reachable hpc (hsafe.bisimilar hseg)
    have hpass := hseg.trans hreach
    rw [passes]
    simp only
    split
    · exact .refl _ _ _ _
    · exact hpass.trans (ih (labels_pass code ▸ hnodup) (hsafe.bisimilar hpass))

end passes

end Machine

/-- A routine whose stack never runs dry does the same after all windows are replaced. -/
theorem RoutineCode.interchangeable_simplify {o : Machine.Operations} (ho : o.Lawful)
    {r : RoutineCode} (hnodup : r.code.labels.Nodup)
    (hsafe : ∀ args s, Machine.Safe o r.code (Machine.enter r args) s) :
    Machine.Interchangeable o r { r with code := r.code.simplify.code } :=
  fun args s => Machine.bisimilar_passes ho _ hnodup rfl (hsafe args s)

end StackCompiler
