import StackCompiler.Proofs.Bisimulation
import StackCompiler.Proofs.Effects
import StackCompiler.Proofs.LiveSlots

/-! Code under new slot numbers.
Two runs go in step as long as slots that are live hold the same values under their old and new
numbers. For this a slot must not be written under a number that stands for another live slot. -/
namespace StackCompiler.Machine

def Effect.renumber (f : Slot → Slot) : Effect → Effect
  | .go stack assigned s => .go stack (assigned.map fun p => (f p.1,p.2)) s
  | e => e

@[simp] theorem Effect.renumber_push (f : Slot → Slot) (stack : List Value) (s : Store)
    (v : Option Value) : (Effect.push stack s v).renumber f = Effect.push stack s v := by
  cases v <;> rfl

section exec

variable {o : Operations} {slots slots' : Slot → Value} {s : Store} {stack : List Value} {i : Instr}
  {f : Slot → Slot}

theorem read_renumber {p : Place} (h : ∀ x, p.slot? = some x → slots x = slots' (f x)) :
    read slots' s (p.renumber f) = read slots s p := by
  cases p with
  | slot n => exact (h n rfl).symm
  | global => rfl

theorem write_renumber (p : Place) (v : Value) :
    write s v (p.renumber f) =
      ((write s v p).1.map fun q => (f q.1,q.2),(write s v p).2) := by
  cases p <;> rfl

/-- An instruction under new numbers does the same if it reads the same. -/
theorem exec_renumber (h : ∀ x, i.used? = some x → slots x = slots' (f x)) :
    exec o slots' s stack (i.renumber f) = (exec o slots s stack i).renumber f := by
  cases i with
  | load p => simp only [exec,Instr.renumber,read_renumber h,Effect.renumber,Option.map_none]
  | store p =>
    cases stack with
    | nil => rfl
    | cons v rest => simp only [exec,Instr.renumber,write_renumber,Effect.renumber]
  | loadElement p n =>
    simp only [exec,Instr.renumber,read_renumber h]
    split
    · rfl
    · rw [Effect.renumber_push]
  | storeElement p n =>
    cases stack with
    | nil => rfl
    | cons v rest =>
      simp only [exec,Instr.renumber,read_renumber h]
      split
      · rfl
      · split <;> rfl
  | checkBounds p dim =>
    cases stack with
    | nil => rfl
    | cons v rest =>
      simp only [exec,Instr.renumber,read_renumber h]
      split <;> rfl
  | alloc p element n =>
    simp only [exec,Instr.renumber]
    split
    · rfl
    · split
      · rfl
      · simp only [write_renumber,Effect.renumber]
  | binary op t =>
    rcases stack with _ | ⟨y,_ | ⟨x,rest⟩⟩
    · rfl
    · rfl
    · simp only [exec,Instr.renumber,Effect.renumber_push]
  | unary op t =>
    cases stack with
    | nil => rfl
    | cons x rest => simp only [exec,Instr.renumber,Effect.renumber_push]
  | convert =>
    cases stack with
    | nil => rfl
    | cons x rest => simp only [exec,Instr.renumber,Effect.renumber_push]
  | call target n returns =>
    simp only [exec,Instr.renumber]
    split <;> rfl
  | branchIf flag l =>
    cases stack with
    | nil => rfl
    | cons v rest =>
      simp only [exec,Instr.renumber]
      split <;> rfl
  | dup => cases stack <;> rfl
  | pop => cases stack <;> rfl
  | ret value => cases value <;> rfl
  | const | label | branch => rfl

def Effect.Fits (i : Instr) : Effect → Prop
  | .go _ assigned _ => assigned.map Prod.fst = i.defined? ∧ i.endsFlow = false
  | .jump l _ => i.target? = some l
  | .call target _ returns _ => ∃ n, i = .call target n returns
  | .ret _ => ∃ value, i = .ret value
  | .trap => True
  | .underflow => True

theorem Executes.fits {e : Effect} (h : Executes o slots s i stack e) : e.Fits i := by
  cases h with
  | starved | unchecked | trap => trivial
  | store p | @alloc p => cases p <;> exact ⟨rfl,rfl⟩
  | branch | taken => exact rfl
  | call | leave | giveBack => exact ⟨_,rfl⟩
  | _ => exact ⟨rfl,rfl⟩

theorem exec_fits (o : Operations) (slots : Slot → Value) (s : Store) (stack : List Value)
    (i : Instr) : (exec o slots s stack i).Fits i :=
  (executes_exec o slots s stack i).fits

end exec

theorem target?_map_renumber (f : Slot → Slot) (l : Label) (code : Code) :
    target? l (code.map (Instr.renumber f)) = target? l code := by
  induction code with
  | nil => rfl
  | cons i rest ih =>
    have hi : i.renumber f = .label l ↔ i = .label l := by cases i <;> simp [Instr.renumber]
    simp only [List.map_cons,target?,ih,hi]

/-- The same action on the same store, after which both sides are related again. -/
inductive Action.InStep (R : Config → Config → Prop) : Action → Action → Prop
  | next {c c' : Config} {s : Store} (h : R c c') : InStep R (.next c s) (.next c' s)
  | call {target : CallTarget} {args : List Value} {returns : Bool} {c c' : Config}
    (h : ∀ v d, c.resume returns v = some d → ∃ d', c'.resume returns v = some d' ∧ R d d') :
    InStep R (.call target args returns c) (.call target args returns c')
  | ret (v : Option Value) : InStep R (.ret v) (.ret v)
  | trap : InStep R .trap .trap
  | underflow : InStep R .underflow .underflow

theorem Action.InStep.follows {R : Config → Config → Prop} {o : Operations} {code code' : Code}
    {c c' : Config} {s : Store} (h : (step o code c s).InStep R (step o code' c' s)) :
    Follows o code code' (fun c c' _ => R c c') (fun _ => ()) False (fun _ => 0) c c' s := by
  generalize ha : step o code c s = a at h
  generalize ha' : step o code' c' s = a' at h
  cases h with
  | next h => exact follows_step ha ha' h
  | call h => exact follows_now ha ha' rfl rfl ⟨rfl,rfl,rfl,fun v d _ hd => h v d hd⟩
  | ret v => exact follows_now ha ha' rfl rfl rfl
  | trap => exact follows_now ha ha' rfl rfl trivial
  | underflow => exact follows_now ha ha' rfl rfl trivial

/-- No slot is written under the new number of another slot that is live then. -/
def Apart (code : Code) (f : Slot → Slot) : Prop :=
  ∀ pc i x y, code[pc]? = some i → i.defined? = some x → y ∈ code.liveAt (pc + 1) → y ≠ x →
    f y ≠ f x

/-- At the same place with the same values on the stack and in live slots. -/
structure Agree (code : Code) (f : Slot → Slot) (c c' : Config) : Prop where
  pc : c'.pc = c.pc
  stack : c'.stack = c.stack
  slots : ∀ x ∈ code.liveAt c.pc, c.slots x = c'.slots (f x)

section simulation

variable {o : Operations} {code : Code} {f : Slot → Slot} {c c' : Config}

/-- Live slots agree after the slot that the instruction defines has changed. -/
theorem Agree.assign (h : Agree code f c c') (hf : Apart code f) {i : Instr}
    (hi : code[c.pc]? = some i) (hflow : i.endsFlow = false) {assigned : Option (Slot × Value)}
    (ha : assigned.map Prod.fst = i.defined?) :
    ∀ x ∈ code.liveAt (c.pc + 1), Machine.assign c.slots assigned x =
      Machine.assign c'.slots (assigned.map fun p => (f p.1,p.2)) (f x) := by
  intro x hx
  cases assigned with
  | none => exact h.slots x (Code.mem_liveAt_of_next hi hflow hx (by simp [← ha]))
  | some p =>
    obtain ⟨n,v⟩ := p
    have hdefined : i.defined? = some n := ha.symm
    by_cases hxn : x = n
    · subst hxn
      simp [Machine.assign]
    · have hne := hf c.pc i n x hi hdefined hx hxn
      have hold := h.slots x (Code.mem_liveAt_of_next hi hflow hx (by
        rw [hdefined]
        exact fun he => hxn (Option.some.inj he).symm))
      simpa [Machine.assign,Function.update_of_ne hxn,Function.update_of_ne hne] using hold

theorem Agree.step (h : Agree code f c c') (hf : Apart code f) (o : Operations) (s : Store) :
    (step o code c s).InStep (Agree code f) (step o (code.map (Instr.renumber f)) c' s) := by
  have hget : (code.map (Instr.renumber f))[c'.pc]? = code[c.pc]?.map (Instr.renumber f) := by
    rw [h.pc,List.getElem?_map]
  cases hi : code[c.pc]? with
  | none =>
    rw [hi] at hget
    rw [step_of_end hi,step_of_end hget]
    exact .trap
  | some i =>
    rw [hi] at hget
    have hused : ∀ x, i.used? = some x → c.slots x = c'.slots (f x) := fun x hx =>
      h.slots x (Code.mem_liveAt_of_used hi hx)
    rw [step_of_getElem? hi,step_of_getElem? hget,h.stack,exec_renumber hused]
    have hfits := exec_fits o c.slots s c.stack i
    cases he : exec o c.slots s c.stack i with
    | go stack assigned t =>
      rw [he] at hfits
      exact .next ⟨by simp [h.pc],rfl,h.assign hf hi hfits.2 hfits.1⟩
    | jump l stack =>
      rw [he] at hfits
      simp only [Effect.renumber,follow,target?_map_renumber]
      cases hl : target? l code with
      | none => exact .trap
      | some n => exact .next ⟨rfl,rfl,fun x hx => h.slots x (Code.mem_liveAt_of_jump hi hfits hl hx)⟩
    | call target args returns stack =>
      rw [he] at hfits
      obtain ⟨n,rfl⟩ := hfits
      have hnone : (none : Option (Slot × Value)).map Prod.fst = Instr.defined? (.call target n returns) :=
        rfl
      have hnext := h.assign hf hi rfl hnone
      refine .call ?_
      intro v d hd
      obtain ⟨hpc,hslots,_⟩ := Config.resume_eq_some hd
      refine ⟨_,Config.resume_elsewhere hd (c'.pc + 1) c'.slots,by simp [hpc,h.pc],rfl,?_⟩
      rw [hpc,hslots]
      exact hnext
    | ret v => exact .ret v
    | trap => exact .trap
    | underflow => exact .underflow

theorem bisimilar_renumber (o : Operations) (hf : Apart code f) (h : Agree code f c c') (s : Store) :
    Bisimilar o code (code.map (Instr.renumber f)) c c' s :=
  ⟨fun c c' _ => Agree code f c c',bisimulation_of_follows fun _ _ s h => (h.step hf o s).follows,h⟩

end simulation

end StackCompiler.Machine
