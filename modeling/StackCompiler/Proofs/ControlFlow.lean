import StackCompiler.Proofs.Segments

/-! What choices and loops in code do.
A loop runs in the slots that it finds, and some of them hold values that it needs in every round. So
stretches of code are looked at under a property of the slots that they keep. -/
namespace StackCompiler.Machine.Scene

open Evaluation

variable {α β : Type} {S : Scene} {steps bound stop stop' : Nat} {m : Moment} {σ : List Value}

/-- What comes after need not be seen: the world stays the same on the way. -/
theorem Arrives.further {Q R : α → Moment → Prop} {out : Outcome α}
    (h : S.Arrives steps stop m Q out) (hstop : stop ≤ stop')
    (hQ : ∀ a m', Q a m' → ∃ k m'', Goes S.host S.code stop' k m' m'' ∧
      m''.world S.frame = m'.world S.frame ∧ R a m'') : S.Arrives steps stop' m R out := by
  cases out with
  | done a w =>
    obtain ⟨k,m',hgoes,hw,ha⟩ := h
    obtain ⟨j,m'',hrest,hw',hR⟩ := hQ a m' ha
    exact ⟨k + j,m'',(hgoes.mono hstop).trans hrest,hw'.trans hw,hR⟩
  | ended e w =>
    obtain ⟨k,m',m'',hgoes,hpc,he,hw⟩ := h
    exact ⟨k,m',m'',hgoes.mono hstop,Nat.lt_of_lt_of_le hpc hstop,he,hw⟩
  | unfinished =>
    obtain ⟨k,m',hk,hgoes⟩ := h
    exact ⟨k,m',hk,hgoes.mono hstop⟩

/-- A value on top of the stack decides where control goes on. -/
theorem Arrives.choose {Q : α → Moment → Prop} {yes no : Eval α} {flag : Bool} {l : Label} {v : Value}
    {n : Nat} (hpc : m.config.pc < stop) (hi : S.code[m.config.pc]? = some (.branchIf flag l))
    (hl : S.code[n]? = some (.label l)) (hstack : m.config.stack = v :: σ)
    (hyes : S.Arrives steps stop (m.move n σ) Q (yes (m.world S.frame)))
    (hno : S.Arrives steps stop (m.move (m.config.pc + 1) σ) Q (no (m.world S.frame))) :
    S.Arrives steps stop m Q
      ((if v = .scalar (.boolean flag) then yes else no) (m.world S.frame)) := by
  have hbranch := goes_branchIf hpc hi hl hstack
  by_cases hv : v = .scalar (.boolean flag)
  · rw [if_pos hv] at hbranch ⊢
    exact hyes.after hbranch (Nat.le_add_left _ _)
  · rw [if_neg hv] at hbranch ⊢
    exact hno.after hbranch (Nat.le_add_left _ _)

variable (S) in
/-- On the stack `σ` and in slots with the property, the stretch of code does what the evaluation does
and leaves the stack `τ`; the slots keep the property. -/
def Serves (steps : Nat) (I : (Slot → Value) → Prop) (part : Code) (σ : List Value) (act : Eval α)
    (τ : α → List Value) : Prop :=
  ∀ m : Moment, S.code.Has m.config.pc part → m.config.stack = σ → I m.config.slots →
    S.Arrives steps (m.config.pc + part.length) m
      (fun a m' => m'.config.pc = m.config.pc + part.length ∧ m'.config.stack = τ a ∧
        I m'.config.slots)
      (act (m.world S.frame))

section serves

variable {I : (Slot → Value) → Prop} {part : Code}

theorem Does.serves {act : Eval α} {τ : α → List Value} (h : S.Does steps bound part σ act τ)
    (hI : ∀ slots slots', S.frame.Keeps bound slots slots' → I slots → I slots') :
    S.Serves steps I part σ act τ := by
  intro m hcode hstack hslots
  refine (h m hcode hstack).mono (Nat.le_refl _) (Nat.le_refl _) ?_
  rintro a m' ⟨hpc,hstack',hkeeps⟩
  exact ⟨hpc,hstack',hI _ _ hkeeps hslots⟩

/-- Code that keeps every state of the nameless slots below the bound. -/
theorem does_of_serves {act : Eval α} {τ : α → List Value}
    (h : ∀ slots, S.Serves steps (S.frame.Keeps bound slots) part σ act τ) :
    S.Does steps bound part σ act τ :=
  fun m hcode hstack => h m.config.slots m hcode hstack (.refl _ _ _)

theorem Does.keeps {act : Eval α} {τ : α → List Value} (h : S.Does steps bound part σ act τ)
    (slots : Slot → Value) : S.Serves steps (S.frame.Keeps bound slots) part σ act τ :=
  h.serves fun _ _ h' hslots => hslots.trans h'

theorem Serves.append {a b : Code} {x : Eval α} {f : α → Eval β} {τ : α → List Value}
    {υ : β → List Value} (hx : S.Serves steps I a σ x τ)
    (hf : ∀ v, S.Serves steps I b (τ v) (f v) υ) : S.Serves steps I (a ++ b) σ (x >>= f) υ := by
  intro m hcode hstack hslots
  obtain ⟨ha,hb⟩ := Code.has_append.mp hcode
  rw [List.length_append,← Nat.add_assoc]
  refine (hx m ha hstack hslots).bind (Nat.le_add_right _ _) fun v m' _ ⟨hpc,hstack',hslots'⟩ => ?_
  rw [← hpc] at hb ⊢
  exact hf v m' hb hstack' hslots'

/-- An instruction that only pushes a known value needs no evaluation. -/
theorem Serves.push {i : Instr} {v : Value} {act : Eval α} {τ : α → List Value}
    (hi : ∀ slots s, I slots → exec S.host.operations slots s σ i = .go (v :: σ) none s)
    (h : S.Serves steps I part (v :: σ) act τ) : S.Serves steps I (i :: part) σ act τ := by
  intro m hcode hstack hslots
  obtain ⟨hget,hrest⟩ := Code.has_cons.mp hcode
  have hpc : m.config.pc < m.config.pc + (i :: part).length := by
    rw [List.length_cons]
    omega
  have hstep : m.step S.host S.code = .running (m.move (m.config.pc + 1) (v :: σ)) := by
    rw [Moment.step,step_of_getElem? hget,hstack,hi _ _ hslots]
    rfl
  have hlength : m.config.pc + (i :: part).length = m.config.pc + 1 + part.length := by
    rw [List.length_cons]
    omega
  rw [hlength] at hpc ⊢
  exact Arrives.after (.one hpc hstep) (h (m.move (m.config.pc + 1) (v :: σ)) hrest rfl hslots)
    (Nat.le_add_left _ _)

theorem Serves.const {l : Literal} {act : Eval α} {τ : α → List Value}
    (h : S.Serves steps I part (.scalar l :: σ) act τ) : S.Serves steps I (.const l :: part) σ act τ :=
  h.push fun _ _ _ => rfl

theorem Serves.temp {n : Slot} {v : Value} {act : Eval α} {τ : α → List Value}
    (hn : ∀ slots, I slots → slots n = v) (h : S.Serves steps I part (v :: σ) act τ) :
    S.Serves steps I (.load (.slot n) :: part) σ act τ := by
  refine h.push fun slots s hslots => ?_
  rw [← hn slots hslots]
  rfl

end serves

/-- The code of a loop: a label, the body from there to `mid`, the test from there to `last`, and a
jump back if the test gives `flag`. The slots keep a property all the while. -/
structure Loop (S : Scene) (steps : Nat) (σ : List Value) (I : (Slot → Value) → Prop)
    (body : Eval Unit) (test : Eval Value) (flag : Bool) (l : Label) (top mid last : Nat) : Prop where
  lt : top < last
  label : S.code[top]? = some (.label l)
  jump : S.code[last]? = some (.branchIf flag l)
  body : ∀ m : Moment, m.config.pc = top + 1 → m.config.stack = σ → I m.config.slots →
    S.Arrives steps (last + 1) m (fun _ m' => m'.config.pc = mid ∧ m'.config.stack = σ ∧
      I m'.config.slots) (body (m.world S.frame))
  test : ∀ m : Moment, m.config.pc = mid → m.config.stack = σ → I m.config.slots →
    S.Arrives steps (last + 1) m (fun v m' => m'.config.pc = last ∧ m'.config.stack = v :: σ ∧
      I m'.config.slots) (test (m.world S.frame))

section loops

variable {I : (Slot → Value) → Prop} {body : Eval Unit} {test : Eval Value} {l : Label}
  {top mid last : Nat}

/-- A loop that is entered at its test. Every round passes its label, so that unfinished rounds take
as many steps. -/
theorem Loop.rounds (h : S.Loop steps σ I body test true l top mid last) :
    ∀ n ≤ steps, ∀ m : Moment, m.config.pc = mid → m.config.stack = σ → I m.config.slots →
      S.Arrives n (last + 1) m (fun _ m' => m'.config.pc = last + 1 ∧ m'.config.stack = σ ∧
        I m'.config.slots) (Evaluation.rounds test body n (m.world S.frame)) := by
  intro n
  induction n with
  | zero => exact fun _ m _ _ _ => ⟨0,m,Nat.le_refl 0,.refl m⟩
  | succ n ih =>
    intro hn m hpc hstack hI
    have hle : n ≤ steps := Nat.le_of_succ_le hn
    rw [Evaluation.rounds]
    refine ((h.test m hpc hstack hI).mono (Nat.le_refl _) hn fun _ _ h => h).bind (Nat.le_refl _) ?_
    intro v m₁ _ ⟨hpc₁,hstack₁,hI₁⟩
    have hlt : m₁.config.pc < last + 1 := by omega
    refine Arrives.choose hlt (hpc₁ ▸ h.jump) h.label hstack₁ ?_ ?_
    · have hagain := goes_label (m := m₁.move top σ) (Nat.lt_succ_of_lt h.lt) h.label
      refine Arrives.after hagain (?_ : S.Arrives n (last + 1) _ _ _) (by omega)
      refine ((h.body (m₁.move (top + 1) σ) rfl rfl hI₁).mono (Nat.le_refl _) hle
        fun _ _ h => h).bind (Nat.le_refl _) ?_
      intro _ m₂ _ ⟨hpc₂,hstack₂,hI₂⟩
      exact ih hle m₂ hpc₂ hstack₂ hI₂
    · exact ⟨0,_,.refl _,rfl,congrArg (· + 1) hpc₁,rfl,hI₁⟩

theorem Loop.repeats (h : S.Loop steps σ I body test false l top mid last) :
    ∀ n ≤ steps, ∀ m : Moment, m.config.pc = top → m.config.stack = σ → I m.config.slots →
      S.Arrives n (last + 1) m (fun _ m' => m'.config.pc = last + 1 ∧ m'.config.stack = σ ∧
        I m'.config.slots) (Evaluation.repeats body test n (m.world S.frame)) := by
  intro n
  induction n with
  | zero => exact fun _ m _ _ _ => ⟨0,m,Nat.le_refl 0,.refl m⟩
  | succ n ih =>
    intro hn m hpc hstack hI
    have hle : n ≤ steps := Nat.le_of_succ_le hn
    have hpc' : m.config.pc < last + 1 := hpc ▸ Nat.lt_succ_of_lt h.lt
    have hstart := goes_label hpc' (hpc ▸ h.label)
    rw [Evaluation.repeats]
    refine Arrives.after hstart (?_ : S.Arrives n (last + 1) _ _ _) (by omega)
    refine ((h.body (m.move (m.config.pc + 1) m.config.stack) (congrArg (· + 1) hpc) hstack hI).mono
      (Nat.le_refl _) hle fun _ _ h => h).bind (Nat.le_refl _) ?_
    intro _ m₁ _ ⟨hpc₁,hstack₁,hI₁⟩
    refine ((h.test m₁ hpc₁ hstack₁ hI₁).mono (Nat.le_refl _) hle fun _ _ h => h).bind
      (Nat.le_refl _) ?_
    intro v m₂ _ ⟨hpc₂,hstack₂,hI₂⟩
    have hlt : m₂.config.pc < last + 1 := by omega
    refine Arrives.choose hlt (hpc₂ ▸ h.jump) h.label hstack₂ ?_ ?_
    · exact ih hle (m₂.move top σ) rfl rfl hI₂
    · exact ⟨0,_,.refl _,rfl,congrArg (· + 1) hpc₂,rfl,hI₂⟩

theorem serves_rounds {bodyCode testCode : Code} {k : Label}
    (hbody : S.Serves steps I bodyCode σ body fun _ => σ)
    (htest : S.Serves steps I testCode σ test fun v => v :: σ) :
    S.Serves steps I ([.branch k,.label l] ++ bodyCode ++ [.label k] ++ testCode ++
      [.branchIf true l]) σ (rounds test body steps) fun _ => σ := by
  intro m hcode hstack hslots
  have hshape : [.branch k,.label l] ++ bodyCode ++ [.label k] ++ testCode ++ [.branchIf true l] =
      .branch k :: .label l :: (bodyCode ++ .label k :: (testCode ++ [.branchIf true l])) := by
    simp
  rw [hshape] at hcode ⊢
  obtain ⟨hbranch,hcode⟩ := Code.has_cons.mp hcode
  obtain ⟨hlabel,hcode⟩ := Code.has_cons.mp hcode
  obtain ⟨hb,hcode⟩ := Code.has_append.mp hcode
  obtain ⟨hmid,hcode⟩ := Code.has_cons.mp hcode
  obtain ⟨ht,hcode⟩ := Code.has_append.mp hcode
  have hjump := (Code.has_cons.mp hcode).1
  obtain ⟨mid,hmidEq⟩ : ∃ n, n = m.config.pc + 1 + 1 + bodyCode.length := ⟨_,rfl⟩
  obtain ⟨last,hlastEq⟩ : ∃ n, n = mid + 1 + testCode.length := ⟨_,rfl⟩
  rw [← hmidEq] at hmid ht hjump
  rw [← hlastEq] at hjump
  have hlength : m.config.pc + (Instr.branch k :: .label l ::
      (bodyCode ++ .label k :: (testCode ++ [.branchIf true l]))).length = last + 1 := by
    simp only [List.length_cons,List.length_append,List.length_nil]
    omega
  have hloop : S.Loop steps σ I body test true l (m.config.pc + 1) mid last := by
    refine ⟨by omega,hlabel,hjump,fun m' hpc hstack' hI => ?_,fun m' hpc hstack' hI => ?_⟩
    · refine (hbody m' (hpc ▸ hb) hstack' hI).mono (by omega) (Nat.le_refl _) ?_
      rintro _ m'' ⟨hpc',hrest⟩
      exact ⟨by omega,hrest⟩
    · have hlt : m'.config.pc < last + 1 := by omega
      refine Arrives.after (goes_label hlt (hpc ▸ hmid)) ?_ (Nat.le_add_left _ _)
      refine (htest (m'.move (m'.config.pc + 1) m'.config.stack) (hpc ▸ ht) hstack' hI).mono ?_
        (Nat.le_refl _) ?_
      · change m'.config.pc + 1 + testCode.length ≤ last + 1
        omega
      · rintro v m'' ⟨hpc',hrest⟩
        refine ⟨hpc'.trans ?_,hrest⟩
        change m'.config.pc + 1 + testCode.length = last
        omega
  rw [hlength]
  have hlt : m.config.pc < last + 1 := by omega
  exact Arrives.after (goes_branch hlt hbranch hmid)
    (hloop.rounds steps (Nat.le_refl _) (m.move mid m.config.stack) rfl hstack hslots)
    (Nat.le_add_left _ _)

theorem serves_repeats {bodyCode testCode : Code}
    (hbody : S.Serves steps I bodyCode σ body fun _ => σ)
    (htest : S.Serves steps I testCode σ test fun v => v :: σ) :
    S.Serves steps I ([.label l] ++ bodyCode ++ testCode ++ [.branchIf false l]) σ
      (repeats body test steps) fun _ => σ := by
  intro m hcode hstack hslots
  have hshape : [.label l] ++ bodyCode ++ testCode ++ [.branchIf false l] =
      .label l :: (bodyCode ++ (testCode ++ [.branchIf false l])) := by
    simp
  rw [hshape] at hcode ⊢
  obtain ⟨hlabel,hcode⟩ := Code.has_cons.mp hcode
  obtain ⟨hb,hcode⟩ := Code.has_append.mp hcode
  obtain ⟨ht,hcode⟩ := Code.has_append.mp hcode
  have hjump := (Code.has_cons.mp hcode).1
  obtain ⟨mid,hmidEq⟩ : ∃ n, n = m.config.pc + 1 + bodyCode.length := ⟨_,rfl⟩
  obtain ⟨last,hlastEq⟩ : ∃ n, n = mid + testCode.length := ⟨_,rfl⟩
  rw [← hmidEq] at ht hjump
  rw [← hlastEq] at hjump
  have hlength : m.config.pc + (Instr.label l ::
      (bodyCode ++ (testCode ++ [.branchIf false l]))).length = last + 1 := by
    simp only [List.length_cons,List.length_append,List.length_nil]
    omega
  have hloop : S.Loop steps σ I body test false l m.config.pc mid last := by
    refine ⟨by omega,hlabel,hjump,fun m' hpc hstack' hI => ?_,fun m' hpc hstack' hI => ?_⟩
    · refine (hbody m' (hpc ▸ hb) hstack' hI).mono (by omega) (Nat.le_refl _) ?_
      rintro _ m'' ⟨hpc',hrest⟩
      exact ⟨by omega,hrest⟩
    · refine (htest m' (hpc ▸ ht) hstack' hI).mono (by omega) (Nat.le_refl _) ?_
      rintro v m'' ⟨hpc',hrest⟩
      exact ⟨by omega,hrest⟩
  rw [hlength]
  exact hloop.repeats steps (Nat.le_refl _) m rfl hstack hslots

end loops

section choices

variable {test : Eval Value} {yes no : Eval Unit} {testCode yesCode noCode : Code} {l l' : Label}

theorem does_choice (htest : S.Does steps bound testCode σ test fun v => v :: σ)
    (hyes : S.Does steps bound yesCode σ yes fun _ => σ)
    (hno : S.Does steps bound noCode σ no fun _ => σ) :
    S.Does steps bound (testCode ++ [.branchIf false l'] ++ yesCode ++
      ([.branch l,.label l'] ++ noCode) ++ [.label l]) σ
      (do let v ← test; if v = .scalar (.boolean false) then no else yes) fun _ => σ := by
  intro m hcode hstack
  have hshape : testCode ++ [.branchIf false l'] ++ yesCode ++ ([.branch l,.label l'] ++ noCode) ++
      [.label l] = testCode ++ .branchIf false l' :: (yesCode ++ .branch l :: .label l' ::
        (noCode ++ [.label l])) := by
    simp
  rw [hshape] at hcode ⊢
  obtain ⟨ht,hcode⟩ := Code.has_append.mp hcode
  obtain ⟨hif,hcode⟩ := Code.has_cons.mp hcode
  obtain ⟨hy,hcode⟩ := Code.has_append.mp hcode
  obtain ⟨hbranch,hcode⟩ := Code.has_cons.mp hcode
  obtain ⟨hother,hcode⟩ := Code.has_cons.mp hcode
  obtain ⟨hn,hcode⟩ := Code.has_append.mp hcode
  have hdone := (Code.has_cons.mp hcode).1
  obtain ⟨mid,hmidEq⟩ : ∃ n, n = m.config.pc + testCode.length + 1 + yesCode.length := ⟨_,rfl⟩
  obtain ⟨last,hlastEq⟩ : ∃ n, n = mid + 1 + 1 + noCode.length := ⟨_,rfl⟩
  rw [← hmidEq] at hbranch hother hn hdone
  rw [← hlastEq] at hdone
  have hlength : m.config.pc + (testCode ++ Instr.branchIf false l' :: (yesCode ++ .branch l ::
      .label l' :: (noCode ++ [.label l]))).length = last + 1 := by
    simp only [List.length_cons,List.length_append,List.length_nil]
    omega
  rw [hlength]
  refine (htest m ht hstack).bind (by omega) fun v m₁ _ ⟨hpc₁,hstack₁,hkeeps₁⟩ => ?_
  have hlt : m₁.config.pc < last + 1 := by omega
  refine Arrives.choose hlt (hpc₁ ▸ hif) hother hstack₁ ?_ ?_
  · have hlabel := goes_label (m := m₁.move (mid + 1) σ) (show mid + 1 < last + 1 by omega) hother
    refine Arrives.after hlabel ?_ (Nat.le_add_left _ _)
    refine (hno (m₁.move (mid + 1 + 1) σ) hn rfl).further (show mid + 1 + 1 + _ ≤ _ by omega) ?_
    rintro _ m₂ ⟨hpc₂,hstack₂,hkeeps₂⟩
    replace hpc₂ : m₂.config.pc = last := hpc₂.trans hlastEq.symm
    refine ⟨1,_,goes_label (by omega) (hpc₂ ▸ hdone),rfl,?_,hstack₂,hkeeps₁.trans hkeeps₂⟩
    exact congrArg (· + 1) hpc₂
  · refine (hyes (m₁.move (m₁.config.pc + 1) σ) (hpc₁ ▸ hy) rfl).further
      (show m₁.config.pc + 1 + _ ≤ _ by omega) ?_
    rintro _ m₂ ⟨hpc₂,hstack₂,hkeeps₂⟩
    replace hpc₂ : m₂.config.pc = mid := by
      rw [hpc₂,hmidEq,← hpc₁]
      rfl
    have hjump := goes_branch (show m₂.config.pc < last + 1 by omega) (hpc₂ ▸ hbranch) hdone
    have hlabel := goes_label (m := m₂.move last m₂.config.stack) (Nat.lt_succ_self last) hdone
    exact ⟨2,_,hjump.trans hlabel,rfl,rfl,hstack₂,hkeeps₁.trans hkeeps₂⟩

theorem does_option (htest : S.Does steps bound testCode σ test fun v => v :: σ)
    (hyes : S.Does steps bound yesCode σ yes fun _ => σ) :
    S.Does steps bound (testCode ++ [.branchIf false l] ++ yesCode ++ [.label l]) σ
      (do let v ← test; if v = .scalar (.boolean false) then pure () else yes) fun _ => σ := by
  intro m hcode hstack
  have hshape : testCode ++ [.branchIf false l] ++ yesCode ++ [.label l] =
      testCode ++ .branchIf false l :: (yesCode ++ [.label l]) := by
    simp
  rw [hshape] at hcode ⊢
  obtain ⟨ht,hcode⟩ := Code.has_append.mp hcode
  obtain ⟨hif,hcode⟩ := Code.has_cons.mp hcode
  obtain ⟨hy,hcode⟩ := Code.has_append.mp hcode
  have hdone := (Code.has_cons.mp hcode).1
  obtain ⟨last,hlastEq⟩ : ∃ n, n = m.config.pc + testCode.length + 1 + yesCode.length := ⟨_,rfl⟩
  rw [← hlastEq] at hdone
  have hlength : m.config.pc + (testCode ++ Instr.branchIf false l ::
      (yesCode ++ [.label l])).length = last + 1 := by
    simp only [List.length_cons,List.length_append,List.length_nil]
    omega
  rw [hlength]
  refine (htest m ht hstack).bind (by omega) fun v m₁ _ ⟨hpc₁,hstack₁,hkeeps₁⟩ => ?_
  have hlt : m₁.config.pc < last + 1 := by omega
  refine Arrives.choose hlt (hpc₁ ▸ hif) hdone hstack₁ ?_ ?_
  · have hlabel := goes_label (m := m₁.move last σ) (Nat.lt_succ_self last) hdone
    exact ⟨1,_,hlabel,rfl,rfl,rfl,hkeeps₁⟩
  · refine (hyes (m₁.move (m₁.config.pc + 1) σ) (hpc₁ ▸ hy) rfl).further
      (show m₁.config.pc + 1 + _ ≤ _ by omega) ?_
    rintro _ m₂ ⟨hpc₂,hstack₂,hkeeps₂⟩
    replace hpc₂ : m₂.config.pc = last := by
      rw [hpc₂,hlastEq,← hpc₁]
      rfl
    refine ⟨1,_,goes_label (by omega) (hpc₂ ▸ hdone),rfl,?_,hstack₂,hkeeps₁.trans hkeeps₂⟩
    exact congrArg (· + 1) hpc₂

end choices

theorem arrives_keep {part : Code} {act : Eval Value} {n : Slot}
    (h : S.Does steps bound part σ act fun v => v :: σ) (hn : S.frame.Nameless n) (hle : bound ≤ n)
    (hcode : S.code.Has m.config.pc (part ++ [.store (.slot n)])) (hstack : m.config.stack = σ) :
    S.Arrives steps (m.config.pc + (part ++ [Instr.store (.slot n)]).length) m
      (fun v m' => m'.config.pc = m.config.pc + (part ++ [Instr.store (.slot n)]).length ∧
        m'.config.stack = σ ∧ S.frame.Keeps bound m.config.slots m'.config.slots ∧
        m'.config.slots n = v)
      (act (m.world S.frame)) := by
  obtain ⟨hpart,hcode⟩ := Code.has_append.mp hcode
  have hstore := (Code.has_cons.mp hcode).1
  have hlength : m.config.pc + (part ++ [Instr.store (.slot n)]).length =
      m.config.pc + part.length + 1 := by
    rw [List.length_append,Nat.add_assoc]
    rfl
  rw [hlength]
  refine (h m hpart hstack).further (Nat.le_succ _) ?_
  rintro v m' ⟨hpc,hstack',hkeeps⟩
  have hstep : m'.step S.host S.code = .running
      ⟨⟨m'.config.pc + 1,σ,Function.update m'.config.slots n v⟩,m'.store,m'.calls⟩ := by
    rw [Moment.step,step_of_getElem? (hpc ▸ hstore),hstack']
    rfl
  refine ⟨1,_,.one (by omega) hstep,?_,congrArg (· + 1) hpc,rfl,?_,Function.update_self _ _ _⟩
  · exact congrArg (World.mk · m'.store m'.calls) (Frame.view_update_nameless hn v)
  · refine hkeeps.trans fun k hk _ => Function.update_of_ne ?_ _ _
    exact Nat.ne_of_lt (Nat.lt_of_lt_of_le hk hle)

end StackCompiler.Machine.Scene
