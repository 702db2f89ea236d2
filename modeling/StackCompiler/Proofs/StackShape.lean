import StackCompiler.Proofs.Discipline

/-! Code that is made statement by statement.
A path starts at the first instruction with an empty stack, goes on to the next instruction unless
control never does, and follows a branch to the last label of its number. Where all paths keep the
shape of statements, the stack is empty between basic blocks. -/
namespace StackCompiler

namespace Instr

def isCall : Instr → Bool
  | call .. => true
  | _ => false

theorem endsFlow_of_isBoundary {i : Instr} (h : i.isBoundary = false) : i.endsFlow = false := by
  cases i with
  | branch | ret => cases h
  | _ => rfl

/-- Where control goes on into another block the stack is empty. -/
theorem Shaped.remark_of_boundary {i : Instr} {st : List Mark} (h : i.Shaped st)
    (hb : i.isBoundary = true) (hflow : i.endsFlow = false) : i.remark st = [] := by
  cases i with
  | label => rw [h.before rfl]; rfl
  | branchIf => exact h.after rfl
  | branch | ret => cases hflow
  | _ => cases hb

/-- What is asked inside a basic block: no instruction takes values off the stack for good while
others wait there, unless values may wait during calls and it is one, and a value that was compared
with bounds is no operand. -/
structure Tidy (calls : Prop) (i : Instr) (st : List Mark) : Prop where
  after : i.leavesEmpty = true → ¬(calls ∧ i.isCall = true) → i.remark st = []
  plain : i.isOperator = true → ∀ m ∈ st.take i.pops, m = .plain

theorem Shaped.tidy {i : Instr} {st : List Mark} (h : i.Shaped st) (calls : Prop) :
    i.Tidy calls st :=
  ⟨fun hi _ => h.after hi,h.plain⟩

end Instr

namespace Code

/-- Control can be before the instruction at a position, with a stack that has the marks. -/
inductive Visits (code : Code) : Nat → List Mark → Prop
  | entry : Visits code 0 []
  | next {pc : Nat} {st : List Mark} {i : Instr} (h : Visits code pc st) (hi : code[pc]? = some i)
    (hflow : i.endsFlow = false) : Visits code (pc + 1) (i.remark st)
  | jump {pc n : Nat} {st : List Mark} {i : Instr} {l : Label} (h : Visits code pc st)
    (hi : code[pc]? = some i) (hl : i.target? = some l) (hn : Machine.target? l code = some n) :
    Visits code n (i.remark st)

/-- On every path the instructions keep the shape of statements. -/
def Shaped (code : Code) : Prop :=
  ∀ pc st i, code.Visits pc st → code[pc]? = some i → i.Shaped st

/-- The basic block around a position is tidy up to there and has left values with the marks. -/
inductive Block (calls : Prop) (code : Code) : Nat → List Mark → Prop
  | entry : Block calls code 0 []
  | boundary {n : Nat} {i : Instr} (hi : code[n]? = some i) (hb : i.isBoundary = true) :
    Block calls code (n + 1) []
  | next {n : Nat} {st : List Mark} {i : Instr} (h : Block calls code n st) (hi : code[n]? = some i)
    (hb : i.isBoundary = false) (ht : i.Tidy calls st) : Block calls code (n + 1) (i.remark st)

variable {code : Code} {pc : Nat} {st : List Mark} {i : Instr}

/-- Blocks that lie on a path are tidy; a label still belongs to the block before it. -/
theorem Shaped.block (hs : code.Shaped) (h : code.Visits pc st)
    (hlabel : ∀ l, code[pc]? ≠ some (.label l)) : Block False code pc st := by
  induction h with
  | entry => exact .entry
  | @next pc st i h hi hflow ih =>
    have hshaped := hs pc st i h hi
    cases hb : i.isBoundary with
    | true =>
      rw [hshaped.remark_of_boundary hb hflow]
      exact .boundary hi hb
    | false =>
      refine .next (ih fun l hl => ?_) hi hb (hshaped.tidy False)
      obtain rfl := Option.some.inj (hi.symm.trans hl)
      cases hb
  | jump _ _ _ hn => exact absurd (Machine.getElem?_of_target? hn) (hlabel _)

theorem Shaped.block_next (hs : code.Shaped) (h : code.Visits pc st) (hi : code[pc]? = some i)
    (hb : i.isBoundary = false) : Block False code (pc + 1) (i.remark st) := by
  refine .next (hs.block h fun l hl => ?_) hi hb ((hs pc st i h hi).tidy False)
  obtain rfl := Option.some.inj (hi.symm.trans hl)
  cases hb

theorem Block.exists_remark {calls : Prop} (h : Block calls code (pc + 1) st)
    (hi : code[pc]? = some i) (hb : i.isBoundary = false) : ∃ before, st = i.remark before := by
  cases h with
  | boundary hj hbj =>
    obtain rfl := Option.some.inj (hi.symm.trans hj)
    rw [hb] at hbj
    cases hbj
  | next _ hj =>
    obtain rfl := Option.some.inj (hi.symm.trans hj)
    exact ⟨_,rfl⟩

/-- A path goes on through instructions that neither start nor end a block. -/
theorem Visits.along (h : code.Visits pc st) (n : Nat) (hn : pc + n ≤ code.length)
    (hstraight : ∀ p i, pc ≤ p → p < pc + n → code[p]? = some i → i.isBoundary = false) :
    ∃ st', code.Visits (pc + n) st' := by
  induction n with
  | zero => exact ⟨st,h⟩
  | succ n ih =>
    obtain ⟨st',hst'⟩ := ih (Nat.le_of_succ_le hn) fun p i hp hlt =>
      hstraight p i hp (Nat.lt_succ_of_lt hlt)
    have hi := List.getElem?_eq_getElem hn
    have hb := hstraight (pc + n) _ (Nat.le_add_right pc n) (Nat.lt_succ_self _) hi
    exact ⟨_,hst'.next hi (Instr.endsFlow_of_isBoundary hb)⟩

theorem Disciplined.marksAt_of_visits (hc : code.Disciplined) (h : code.Visits pc st) :
    code.marksAt pc = some st := by
  induction h with
  | entry => exact marksAt_zero code
  | next _ hi _ ih =>
    obtain ⟨ms,ms',hms,hmark,hnext⟩ := hc.marksAt hi
    obtain rfl := Option.some.inj (ih.symm.trans hms)
    rw [Instr.remark_of_mark hmark]
    exact hnext
  | jump _ hi hl hn ih =>
    obtain ⟨ms,ms',hms,hmark,_⟩ := hc.marksAt hi
    obtain rfl := Option.some.inj (ih.symm.trans hms)
    rw [(Instr.shaped_of_mark hmark).remark_of_target hl]
    exact hc.marksAt_label (Machine.getElem?_of_target? hn)

theorem Disciplined.shaped (hc : code.Disciplined) : code.Shaped := by
  intro pc st i h hi
  obtain ⟨ms,ms',hms,hmark,_⟩ := hc.marksAt hi
  obtain rfl := Option.some.inj ((hc.marksAt_of_visits h).symm.trans hms)
  exact Instr.shaped_of_mark hmark

end Code

end StackCompiler
