import StackCompiler.Code.Instr

/-! Which slots are live before each instruction.
A slot is live where some path leads to a use of it without a definition in between. The sets are
found backwards from the last instruction; a branch takes the set of its label from the round
before, and rounds are made until nothing changes. -/
namespace StackCompiler

/-- A set of slots as an ascending list without repetitions. -/
abbrev SlotSet := List Slot

namespace SlotSet

def insert (s : Slot) : SlotSet → SlotSet
  | [] => [s]
  | x :: xs => if s < x then s :: x :: xs else if s = x then x :: xs else x :: insert s xs

def erase (s : Slot) (xs : SlotSet) : SlotSet := xs.filter (· ≠ s)

def union (xs ys : SlotSet) : SlotSet := xs.foldr insert ys

@[simp] theorem mem_insert (s x : Slot) (xs : SlotSet) : x ∈ insert s xs ↔ x = s ∨ x ∈ xs := by
  induction xs with
  | nil => simp [insert]
  | cons y ys ih =>
    rw [insert]
    split
    · simp
    · split
      · next h => subst h; simp
      · simp only [List.mem_cons,ih]; exact or_left_comm

@[simp] theorem mem_erase (s x : Slot) (xs : SlotSet) : x ∈ erase s xs ↔ x ∈ xs ∧ x ≠ s := by
  simp [erase]

@[simp] theorem mem_union (x : Slot) (xs ys : SlotSet) : x ∈ union xs ys ↔ x ∈ xs ∨ x ∈ ys := by
  induction xs with
  | nil => simp [union]
  | cons y zs ih => simpa [union,or_assoc] using or_congr_right ih

end SlotSet

namespace Liveness

/-- The set at the last definition of a label; nothing is live at a label that is not there. -/
def atLabel (code : Code) (live : List SlotSet) (l : Label) : SlotSet :=
  match (code.zip live).reverse.find? (·.1 == .label l) with
  | some (_,set) => set
  | none => []

/-- What is live after an instruction, given the sets at labels and before the next instruction. -/
def after (labels : Label → SlotSet) (next : SlotSet) : Instr → SlotSet
  | .branch l => labels l
  | .branchIf _ l => SlotSet.union next (labels l)
  | .ret _ => []
  | _ => next

def before (i : Instr) (after : SlotSet) : SlotSet :=
  let kept := match i.defined? with
    | some s => SlotSet.erase s after
    | none => after
  match i.used? with
  | some s => SlotSet.insert s kept
  | none => kept

def sweep (labels : Label → SlotSet) : Code → List SlotSet
  | [] => []
  | i :: rest =>
    let sets := sweep labels rest
    before i (after labels (sets.headD []) i) :: sets

@[simp] theorem length_sweep (labels : Label → SlotSet) (code : Code) :
    (sweep labels code).length = code.length := by
  induction code with
  | nil => rfl
  | cons i rest ih => simp [sweep,ih]

def round (code : Code) (live : List SlotSet) : List SlotSet :=
  sweep (atLabel code live) code

@[simp] theorem length_round (code : Code) (live : List SlotSet) :
    (round code live).length = code.length :=
  length_sweep _ _

/-- Rounds until nothing changes, at most the given number. -/
def settle (code : Code) : Nat → List SlotSet → List SlotSet
  | 0, live => live
  | n + 1, live =>
    let next := round code live
    if next = live then live else settle code n next

theorem length_settle (code : Code) (n : Nat) {live : List SlotSet}
    (h : live.length = code.length) : (settle code n live).length = code.length := by
  induction n generalizing live with
  | zero => exact h
  | succ n ih =>
    rw [settle]
    split
    · exact h
    · exact ih (length_round code live)

end Liveness

/-- The slots live before each instruction. Every round but the last adds a slot to a set, so their
number is bounded by the pairs of an instruction and a slot it could hold. -/
def Code.liveness (code : Code) : List SlotSet :=
  Liveness.settle code (code.length * code.length + 1) (code.map fun _ => [])

@[simp] theorem Code.length_liveness (code : Code) : code.liveness.length = code.length :=
  Liveness.length_settle code _ (by simp)

end StackCompiler
