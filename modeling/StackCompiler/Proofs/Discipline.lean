import StackCompiler.Lowering.State
import StackCompiler.Proofs.Bisimulation
import StackCompiler.Proofs.Effects

/-! The discipline of the operand stack.
A stretch of code is checked from its first instruction to its last as if there were no jumps. That
is enough for all paths, since the stack has to be empty wherever control may come from elsewhere.
Besides their number the checker keeps which values were compared with the bounds of an array: such
a value may only become a subscript. -/
namespace StackCompiler

/-- Whether a value on the operand stack was compared with the bounds of an array. -/
inductive Mark
  | plain | checked
  deriving DecidableEq

/-- The marks of the stack after an instruction, if it keeps the discipline. -/
def Instr.mark : Instr → List Mark → Option (List Mark)
  | .const _, st | .load _, st => some (.plain :: st)
  | .store _, [.plain] | .pop, [.plain] | .branchIf .., [.plain] => some []
  | .loadElement _ n, st | .call _ n true, st =>
    if n ≤ st.length then some (.plain :: st.drop n) else none
  | .storeElement _ n, .plain :: st | .alloc _ _ n, st | .call _ n false, st =>
    if st.length = n then some [] else none
  | .checkBounds .., .plain :: st => some (.checked :: st)
  | .binary .., .plain :: .plain :: st => some (.plain :: st)
  | .unary .., .plain :: st | .convert, .plain :: st => some (.plain :: st)
  | .label _, [] | .branch _, [] | .ret _, [] | .ret true, [.plain] => some []
  | _, _ => none

namespace Instr
variable {ms ms' : List Mark}

theorem mark_of_single {i : Instr} (hnil : i.mark [] = none) (hone : i.mark [.plain] = some [])
    (hchecked : ∀ st, i.mark (.checked :: st) = none)
    (hmore : ∀ m st, i.mark (.plain :: m :: st) = none) :
    mark i ms = some ms' ↔ ms = [.plain] ∧ ms' = [] := by
  constructor
  · intro h
    rcases ms with _ | ⟨_ | _,_ | ⟨m,st⟩⟩
    · cases hnil.symm.trans h
    · cases hone.symm.trans h
      exact ⟨rfl,rfl⟩
    · cases (hmore m st).symm.trans h
    · cases (hchecked []).symm.trans h
    · cases (hchecked (m :: st)).symm.trans h
  · rintro ⟨rfl,rfl⟩
    exact hone

theorem mark_store {p : Place} : mark (store p) ms = some ms' ↔ ms = [.plain] ∧ ms' = [] :=
  mark_of_single rfl rfl (fun _ => rfl) fun _ _ => rfl

theorem mark_pop : mark pop ms = some ms' ↔ ms = [.plain] ∧ ms' = [] :=
  mark_of_single rfl rfl (fun _ => rfl) fun _ _ => rfl

theorem mark_branchIf {flag : Bool} {l : Label} :
    mark (branchIf flag l) ms = some ms' ↔ ms = [.plain] ∧ ms' = [] :=
  mark_of_single rfl rfl (fun _ => rfl) fun _ _ => rfl

theorem mark_of_top {i : Instr} {f : List Mark → Option (List Mark)} (hnil : i.mark [] = none)
    (hchecked : ∀ st, i.mark (.checked :: st) = none) (hplain : ∀ st, i.mark (.plain :: st) = f st) :
    mark i ms = some ms' ↔ ∃ st, ms = .plain :: st ∧ f st = some ms' := by
  constructor
  · intro h
    rcases ms with _ | ⟨_ | _,st⟩
    · cases hnil.symm.trans h
    · exact ⟨st,rfl,(hplain st).symm.trans h⟩
    · cases (hchecked st).symm.trans h
  · rintro ⟨st,rfl,h⟩
    exact (hplain st).trans h

theorem mark_storeElement {p : Place} {n : Nat} :
    mark (storeElement p n) ms = some ms' ↔ ∃ st, ms = .plain :: st ∧ st.length = n ∧ ms' = [] := by
  rw [mark_of_top (f := fun st => if st.length = n then some [] else none) rfl (fun _ => rfl)
    fun _ => rfl]
  simp [eq_comm]

theorem mark_checkBounds {p : Place} {n : Nat} :
    mark (checkBounds p n) ms = some ms' ↔ ∃ st, ms = .plain :: st ∧ ms' = .checked :: st := by
  rw [mark_of_top (f := fun st => some (.checked :: st)) rfl (fun _ => rfl) fun _ => rfl]
  simp [eq_comm]

theorem mark_unary {op : UnaryOp} {t : BaseType} :
    mark (unary op t) ms = some ms' ↔ ∃ st, ms = .plain :: st ∧ ms' = .plain :: st := by
  rw [mark_of_top (f := fun st => some (.plain :: st)) rfl (fun _ => rfl) fun _ => rfl]
  simp [eq_comm]

theorem mark_convert :
    mark convert ms = some ms' ↔ ∃ st, ms = .plain :: st ∧ ms' = .plain :: st := by
  rw [mark_of_top (f := fun st => some (.plain :: st)) rfl (fun _ => rfl) fun _ => rfl]
  simp [eq_comm]

theorem mark_binary {op : BinaryOp} {t : BaseType} :
    mark (binary op t) ms = some ms' ↔ ∃ st, ms = .plain :: .plain :: st ∧ ms' = .plain :: st := by
  constructor
  · intro h
    rcases ms with _ | ⟨_ | _,_ | ⟨_ | _,st⟩⟩ <;> cases h
    exact ⟨st,rfl,rfl⟩
  · rintro ⟨st,rfl,rfl⟩
    rfl

theorem mark_of_empty {i : Instr} (hnil : i.mark [] = some [])
    (hcons : ∀ m st, i.mark (m :: st) = none) : mark i ms = some ms' ↔ ms = [] ∧ ms' = [] := by
  constructor
  · intro h
    cases ms with
    | nil =>
      cases hnil.symm.trans h
      exact ⟨rfl,rfl⟩
    | cons m st => cases (hcons m st).symm.trans h
  · rintro ⟨rfl,rfl⟩
    exact hnil

theorem mark_label {l : Label} : mark (label l) ms = some ms' ↔ ms = [] ∧ ms' = [] :=
  mark_of_empty rfl fun m _ => by cases m <;> rfl

theorem mark_branch {l : Label} : mark (branch l) ms = some ms' ↔ ms = [] ∧ ms' = [] :=
  mark_of_empty rfl fun m _ => by cases m <;> rfl

theorem mark_ret {value : Bool} :
    mark (ret value) ms = some ms' ↔ (ms = [] ∨ value = true ∧ ms = [.plain]) ∧ ms' = [] := by
  constructor
  · intro h
    rcases ms with _ | ⟨_ | _,_ | _⟩ <;> cases value <;> cases h <;> simp
  · rintro ⟨rfl | ⟨rfl,rfl⟩,rfl⟩
    · cases value <;> rfl
    · rfl

theorem mark_dup : mark dup ms = none := by
  rcases ms with _ | ⟨_ | _,st⟩ <;> rfl

/-- How many values have to be on the stack: those that are popped, and the subscript that is
compared with bounds. -/
def needs : Instr → Nat
  | checkBounds .. => 1
  | i => i.pops

theorem pops_le_needs (i : Instr) : i.pops ≤ i.needs := by
  cases i with
  | checkBounds => exact Nat.zero_le 1
  | _ => exact Nat.le_refl _

def height (i : Instr) (n : Nat) : Nat := n - i.pops + i.pushes

/-- A place of the code where the stack has to be empty. -/
def meetsEmpty : Instr → Bool
  | label _ | branch _ | ret false => true
  | _ => false

def leavesEmpty : Instr → Bool
  | branchIf .. | store _ | storeElement .. | alloc .. | pop | call _ _ false => true
  | _ => false

def isOperator : Instr → Bool
  | unary .. | convert | binary .. => true
  | _ => false

def remark : Instr → List Mark → List Mark
  | checkBounds .., _ :: st => .checked :: st
  | i, st => List.replicate i.pushes .plain ++ st.drop i.pops

/-- What statements ask of an instruction and the marks before it. Only a return of a value may find
none, and a value that was compared with bounds is no operand. -/
structure Shaped (i : Instr) (st : List Mark) : Prop where
  enough : i ≠ ret true → i.needs ≤ st.length
  before : i.meetsEmpty = true → st = []
  after : i.leavesEmpty = true → i.remark st = []
  plain : i.isOperator = true → ∀ m ∈ st.take i.pops, m = .plain

theorem length_remark (i : Instr) (st : List Mark) : (i.remark st).length = i.height st.length := by
  cases i with
  | checkBounds => cases st <;> rfl
  | _ => simp [remark,height,Nat.add_comm]

theorem remark_of_mark {i : Instr} (h : i.mark ms = some ms') : i.remark ms = ms' := by
  cases i with
  | const | load => cases h; rfl
  | label => obtain ⟨rfl,rfl⟩ := mark_label.mp h; rfl
  | branch => obtain ⟨rfl,rfl⟩ := mark_branch.mp h; rfl
  | ret value =>
    obtain ⟨rfl | ⟨rfl,rfl⟩,rfl⟩ := mark_ret.mp h
    · cases value <;> rfl
    · rfl
  | store => obtain ⟨rfl,rfl⟩ := mark_store.mp h; rfl
  | pop => obtain ⟨rfl,rfl⟩ := mark_pop.mp h; rfl
  | branchIf => obtain ⟨rfl,rfl⟩ := mark_branchIf.mp h; rfl
  | unary => obtain ⟨st,rfl,rfl⟩ := mark_unary.mp h; rfl
  | convert => obtain ⟨st,rfl,rfl⟩ := mark_convert.mp h; rfl
  | binary => obtain ⟨st,rfl,rfl⟩ := mark_binary.mp h; rfl
  | checkBounds => obtain ⟨st,rfl,rfl⟩ := mark_checkBounds.mp h; rfl
  | dup => rw [mark_dup] at h; cases h
  | storeElement => obtain ⟨st,rfl,rfl,rfl⟩ := mark_storeElement.mp h; simp [remark,pops,pushes]
  | loadElement =>
    simp only [mark] at h
    split at h <;> cases h
    rfl
  | alloc =>
    simp only [mark] at h
    split at h <;> cases h
    simp_all [remark,pops,pushes]
  | call target n returns =>
    cases returns
    all_goals
      simp only [mark] at h
      split at h <;> cases h
      simp_all [remark,pops,pushes]

/-- An instruction that keeps the discipline has the shape of a statement's. -/
theorem shaped_of_mark {i : Instr} (h : i.mark ms = some ms') : i.Shaped ms := by
  have hremark := remark_of_mark h
  cases i with
  | const | load | label => constructor <;> simp_all [needs,pops,meetsEmpty,leavesEmpty,isOperator,mark_label]
  | branch =>
    obtain ⟨rfl,_⟩ := mark_branch.mp h
    constructor <;> simp [needs,pops,leavesEmpty,isOperator]
  | ret value =>
    obtain ⟨rfl | ⟨rfl,rfl⟩,_⟩ := mark_ret.mp h
    · cases value <;> constructor <;> simp [needs,pops,leavesEmpty,isOperator]
    · constructor <;> simp [needs,pops,leavesEmpty,meetsEmpty,isOperator]
  | store =>
    obtain ⟨rfl,rfl⟩ := mark_store.mp h
    constructor <;> simp [needs,pops,meetsEmpty,isOperator,hremark]
  | pop =>
    obtain ⟨rfl,rfl⟩ := mark_pop.mp h
    constructor <;> simp [needs,pops,meetsEmpty,isOperator,hremark]
  | branchIf =>
    obtain ⟨rfl,rfl⟩ := mark_branchIf.mp h
    constructor <;> simp [needs,pops,meetsEmpty,isOperator,hremark]
  | unary =>
    obtain ⟨st,rfl,_⟩ := mark_unary.mp h
    constructor <;> simp [needs,pops,meetsEmpty,leavesEmpty]
  | convert =>
    obtain ⟨st,rfl,_⟩ := mark_convert.mp h
    constructor <;> simp [needs,pops,meetsEmpty,leavesEmpty]
  | binary =>
    obtain ⟨st,rfl,_⟩ := mark_binary.mp h
    constructor <;> simp [needs,pops,meetsEmpty,leavesEmpty]
  | checkBounds =>
    obtain ⟨st,rfl,_⟩ := mark_checkBounds.mp h
    constructor <;> simp [needs,meetsEmpty,leavesEmpty,isOperator]
  | dup => rw [mark_dup] at h; cases h
  | loadElement p n =>
    simp only [mark] at h
    split at h <;> cases h
    constructor <;> simp_all [needs,pops,meetsEmpty,leavesEmpty,isOperator]
  | storeElement p n =>
    obtain ⟨st,rfl,rfl,rfl⟩ := mark_storeElement.mp h
    constructor <;> simp [needs,pops,meetsEmpty,isOperator,hremark]
  | alloc p t n =>
    simp only [mark] at h
    split at h <;> cases h
    constructor <;> simp_all [needs,pops,meetsEmpty,isOperator]
  | call target n returns =>
    cases returns
    all_goals
      simp only [mark] at h
      split at h <;> cases h
      constructor <;> simp_all [needs,pops,meetsEmpty,leavesEmpty,isOperator]

theorem length_of_mark {i : Instr} (h : i.mark ms = some ms') : ms'.length = i.height ms.length := by
  rw [← remark_of_mark h,length_remark]

theorem Shaped.operands {i : Instr} (h : i.Shaped ms) (hop : i.isOperator = true) :
    ∃ st, ms = List.replicate i.pops .plain ++ st := by
  have hle : i.pops ≤ ms.length := by
    cases i with
    | unary | convert | binary => exact h.enough (by simp)
    | _ => cases hop
  refine ⟨ms.drop i.pops,?_⟩
  have htake : ms.take i.pops = List.replicate i.pops .plain :=
    List.eq_replicate_iff.mpr ⟨List.length_take_of_le hle,h.plain hop⟩
  rw [← htake,List.take_append_drop]

theorem Shaped.remark_of_target {i : Instr} (h : i.Shaped ms) {l : Label} (hl : i.target? = some l) :
    i.remark ms = [] := by
  cases i with
  | branch => rw [h.before rfl]; rfl
  | branchIf => exact h.after rfl
  | _ => cases hl

end Instr

namespace Code

def marks : Code → List Mark → Option (List Mark)
  | [], st => some st
  | i :: rest, st => (i.mark st).bind (marks rest)

theorem marks_append (a b : Code) (st : List Mark) :
    (a ++ b).marks st = (a.marks st).bind b.marks := by
  induction a generalizing st with
  | nil => rfl
  | cons i rest ih =>
    simp only [List.cons_append,marks]
    cases i.mark st with
    | none => rfl
    | some st => exact ih st

/-- The code starts and ends with an empty stack and keeps the discipline. -/
def Disciplined (code : Code) : Prop := code.marks [] = some []

def Straight (code : Code) : Prop := ∀ i ∈ code, i.isBoundary = false

theorem Straight.append {a b : Code} (ha : Straight a) (hb : Straight b) : Straight (a ++ b) := by
  intro i hi
  rcases List.mem_append.mp hi with h | h
  · exact ha i h
  · exact hb i h

theorem straight_singleton {i : Instr} (h : i.isBoundary = false) : Straight [i] := by
  intro j hj
  rwa [List.mem_singleton.mp hj]

/-- The code of a value: it leaves one more value on whatever stack it finds. -/
structure Pushes (code : Code) : Prop where
  marks : ∀ st, code.marks st = some (.plain :: st)
  straight : code.Straight

structure PushesAll (code : Code) (n : Nat) : Prop where
  marks : ∀ st, ∃ ms : List Mark, ms.length = n ∧ code.marks st = some (ms ++ st)
  straight : code.Straight

@[simp] theorem disciplined_nil : Disciplined [] := rfl

theorem Disciplined.append {a b : Code} (ha : Disciplined a) (hb : Disciplined b) :
    Disciplined (a ++ b) := by
  rw [Disciplined,marks_append,ha]
  exact hb

theorem pushes_const (l : Literal) : Pushes [.const l] :=
  ⟨fun _ => rfl,straight_singleton rfl⟩

theorem pushes_load (p : Place) : Pushes [.load p] :=
  ⟨fun _ => rfl,straight_singleton rfl⟩

theorem straight_coercion (c : Coercion) : Straight c.code := by
  cases c with
  | keep => exact fun _ h => by cases h
  | toDouble => exact straight_singleton rfl

theorem Pushes.coerce {code : Code} (h : Pushes code) (c : Coercion) : Pushes (code ++ c.code) := by
  refine ⟨fun st => ?_,h.straight.append (straight_coercion c)⟩
  rw [marks_append,h.marks st]
  cases c <;> rfl

theorem Pushes.unary {code : Code} (h : Pushes code) (op : UnaryOp) (t : BaseType) :
    Pushes (code ++ [.unary op t]) := by
  refine ⟨fun st => ?_,h.straight.append (straight_singleton rfl)⟩
  rw [marks_append,h.marks st]
  rfl

theorem Pushes.binary {a b : Code} (ha : Pushes a) (hb : Pushes b) (op : BinaryOp) (t : BaseType) :
    Pushes (a ++ b ++ [.binary op t]) := by
  refine ⟨fun st => ?_,(ha.straight.append hb.straight).append (straight_singleton rfl)⟩
  rw [marks_append,marks_append,ha.marks st,Option.bind_some,hb.marks]
  rfl

theorem pushesAll_nil : PushesAll [] 0 := ⟨fun _ => ⟨[],rfl,rfl⟩,fun _ h => by cases h⟩

theorem Pushes.pushesAll {code : Code} (h : Pushes code) : PushesAll code 1 :=
  ⟨fun st => ⟨[.plain],rfl,h.marks st⟩,h.straight⟩

theorem PushesAll.append {a b : Code} {n m : Nat} (ha : PushesAll a n) (hb : PushesAll b m) :
    PushesAll (a ++ b) (n + m) := by
  refine ⟨fun st => ?_,ha.straight.append hb.straight⟩
  obtain ⟨ms,hms,h⟩ := ha.marks st
  obtain ⟨ks,hks,h'⟩ := hb.marks (ms ++ st)
  refine ⟨ks ++ ms,by simp [hms,hks,Nat.add_comm],?_⟩
  rw [marks_append,h,Option.bind_some,h',List.append_assoc]

theorem Pushes.check {code : Code} (h : Pushes code) (p : Place) (dim : Nat) :
    PushesAll (code ++ [.checkBounds p dim]) 1 := by
  refine ⟨fun st => ⟨[.checked],rfl,?_⟩,h.straight.append (straight_singleton rfl)⟩
  rw [marks_append,h.marks st]
  rfl

/-- Values that an instruction takes off the stack and replaces by one. -/
theorem PushesAll.pushes {code : Code} {n : Nat} (h : PushesAll code n) {i : Instr}
    (hi : ∀ st, i.mark st = if n ≤ st.length then some (.plain :: st.drop n) else none)
    (hb : i.isBoundary = false) : Pushes (code ++ [i]) := by
  refine ⟨fun st => ?_,h.straight.append (straight_singleton hb)⟩
  obtain ⟨ms,hms,hm⟩ := h.marks st
  rw [marks_append,hm,Option.bind_some,Code.marks,hi,if_pos (by simp [hms])]
  simp [← hms,Code.marks]

/-- Values that an instruction takes off the stack, which is empty then. -/
theorem PushesAll.disciplined {code : Code} {n : Nat} (h : PushesAll code n) {i : Instr}
    (hi : ∀ st, i.mark st = if st.length = n then some [] else none) :
    Disciplined (code ++ [i]) := by
  obtain ⟨ms,hms,hm⟩ := h.marks []
  rw [Disciplined,marks_append,hm,Option.bind_some,Code.marks,hi,if_pos (by simp [hms])]
  rfl

theorem Pushes.disciplined {code : Code} (h : Pushes code) {i : Instr}
    (hi : i.mark [.plain] = some []) : Disciplined (code ++ [i]) := by
  rw [Disciplined,marks_append,h.marks,Option.bind_some,Code.marks,hi]
  rfl

/-- A value after disciplined code, and an instruction that takes it off. -/
theorem Disciplined.append_pushes {a b : Code} (ha : Disciplined a) (hb : Pushes b) {i : Instr}
    (hi : i.mark [.plain] = some []) : Disciplined (a ++ b ++ [i]) := by
  rw [List.append_assoc]
  exact ha.append (hb.disciplined hi)

theorem PushesAll.storeElement {a b : Code} {n : Nat} (ha : PushesAll a n) (hb : Pushes b)
    (p : Place) : Disciplined (a ++ b ++ [.storeElement p n]) := by
  obtain ⟨ms,hms,hm⟩ := ha.marks []
  rw [Disciplined,marks_append,marks_append,hm,Option.bind_some,hb.marks,Option.bind_some,
    Code.marks]
  have hmark : Instr.mark (.storeElement p n) (.plain :: (ms ++ [])) = some [] :=
    Instr.mark_storeElement.mpr ⟨ms ++ [],rfl,by simp [hms],rfl⟩
  rw [hmark]
  rfl

theorem marks_renumber (f : Slot → Slot) (code : Code) (st : List Mark) :
    marks (code.map (Instr.renumber f)) st = code.marks st := by
  induction code generalizing st with
  | nil => rfl
  | cons i rest ih =>
    have hi : (i.renumber f).mark st = i.mark st := by
      cases i <;> rcases st with _ | ⟨_ | _,_ | _⟩ <;> rfl
    rw [List.map_cons,marks,marks,hi]
    cases i.mark st with
    | none => rfl
    | some st => exact ih st

theorem Disciplined.renumber {code : Code} (h : Disciplined code) (f : Slot → Slot) :
    Disciplined (code.map (Instr.renumber f)) := by
  rw [Disciplined,marks_renumber]
  exact h

def marksAt (code : Code) (pc : Nat) : Option (List Mark) := marks (code.take pc) []

@[simp] theorem marksAt_zero (code : Code) : code.marksAt 0 = some [] := by
  simp [marksAt,marks]

theorem marksAt_succ {code : Code} {pc : Nat} {i : Instr} (hi : code[pc]? = some i) :
    code.marksAt (pc + 1) = (code.marksAt pc).bind i.mark := by
  rw [marksAt,marksAt,List.take_add_one,hi,Option.toList_some,marks_append]
  congr 1
  funext st
  simp [marks]

/-- In disciplined code every instruction finds a stack that suits it. -/
theorem Disciplined.marksAt {code : Code} (h : Disciplined code) {pc : Nat} {i : Instr}
    (hi : code[pc]? = some i) :
    ∃ ms ms', code.marksAt pc = some ms ∧ i.mark ms = some ms' ∧
      code.marksAt (pc + 1) = some ms' := by
  have hsplit : code = code.take pc ++ i :: code.drop (pc + 1) := by
    obtain ⟨hlt,rfl⟩ := List.getElem?_eq_some_iff.mp hi
    simp
  have hall : marks (code.take pc ++ i :: code.drop (pc + 1)) [] = some [] := hsplit ▸ h
  rw [marks_append] at hall
  obtain ⟨ms,hms,hrest⟩ := Option.bind_eq_some_iff.mp hall
  rw [marks] at hrest
  obtain ⟨ms',hms',_⟩ := Option.bind_eq_some_iff.mp hrest
  refine ⟨ms,ms',hms,hms',?_⟩
  rw [marksAt_succ hi,Code.marksAt,hms]
  exact hms'

theorem Disciplined.marksAt_label {code : Code} (h : Disciplined code) {pc : Nat} {l : Label}
    (hi : code[pc]? = some (.label l)) : code.marksAt pc = some [] := by
  obtain ⟨ms,ms',hms,hms',_⟩ := h.marksAt hi
  obtain ⟨rfl,_⟩ := Instr.mark_label.mp hms'
  exact hms

end Code

namespace Machine

/-- What an instruction that keeps the discipline does to a stack of the right height. -/
def Effect.Suits (ms : List Mark) : Effect → Prop
  | .go stack _ _ => stack.length = ms.length
  | .jump _ stack => stack = []
  | .call _ _ returns stack => stack.length + returns.toNat = ms.length
  | .ret _ => True
  | .trap => True
  | .underflow => False

def Effect.Leaves (i : Instr) (n : Nat) : Effect → Prop
  | .go stack _ _ => stack.length = i.height n
  | .jump l stack => stack.length = i.height n ∧ i.target? = some l
  | .call _ _ returns stack => stack.length + returns.toNat = i.height n
  | .ret _ => True
  | .trap => True
  | .underflow => n < i.needs ∧ i ≠ .ret true

theorem Executes.leaves {o : Operations} {slots : Slot → Value} {s : Store} {stack : List Value}
    {i : Instr} {e : Effect} (h : Executes o slots s i stack e) : e.Leaves i stack.length := by
  cases h with
  | starved hlt hi => exact ⟨Nat.lt_of_lt_of_le hlt i.pops_le_needs,hi⟩
  | unchecked => exact ⟨Nat.one_pos,by simp⟩
  | trap | leave | giveBack => trivial
  | branch | taken => exact ⟨rfl,rfl⟩
  | loadElement | storeElement | alloc | call =>
    simp [Effect.Leaves,Instr.height,Instr.pops,Instr.pushes]
  | _ => rfl

theorem exec_leaves (o : Operations) (slots : Slot → Value) (s : Store) (stack : List Value)
    (i : Instr) : (exec o slots s stack i).Leaves i stack.length :=
  (executes_exec o slots s stack i).leaves

theorem exec_suits (o : Operations) (slots : Slot → Value) (s : Store) {stack : List Value}
    {i : Instr} {ms ms' : List Mark} (hi : i.mark ms = some ms') (h : stack.length = ms.length) :
    (exec o slots s stack i).Suits ms' := by
  have hshaped := Instr.shaped_of_mark hi
  have hleaves := exec_leaves o slots s stack i
  rw [h] at hleaves
  cases he : exec o slots s stack i with
  | go | call =>
    rw [he] at hleaves
    exact hleaves.trans (Instr.length_of_mark hi).symm
  | jump =>
    rw [he] at hleaves
    obtain ⟨hlen,hl⟩ := hleaves
    rw [← Instr.length_remark,hshaped.remark_of_target hl] at hlen
    exact List.length_eq_zero_iff.mp hlen
  | ret | trap => trivial
  | underflow =>
    rw [he] at hleaves
    exact Nat.not_lt.mpr (hshaped.enough hleaves.2) hleaves.1

def Config.Marked (code : Code) (c : Config) : Prop :=
  ∃ ms, code.marksAt c.pc = some ms ∧ c.stack.length = ms.length

section marked

variable {o : Operations} {code : Code} {c d : Config} {s t : Store}

theorem getElem?_of_target? {l : Label} {code : Code} {n : Nat} (h : target? l code = some n) :
    code[n]? = some (.label l) := by
  induction code generalizing n with
  | nil => simp [target?] at h
  | cons i rest ih =>
    simp only [target?] at h
    split at h
    · next m hm =>
      obtain rfl := Option.some.inj h
      simpa using ih hm
    · split at h
      · next hi =>
        obtain rfl := Option.some.inj h
        simp [hi]
      · cases h

def Action.Marked (code : Code) : Action → Prop
  | .next d _ => d.Marked code
  | .call _ _ returns k => ∀ v d, k.resume returns v = some d → d.Marked code
  | .ret _ => True
  | .trap => True
  | .underflow => False

theorem Config.Marked.step (h : c.Marked code) (hc : code.Disciplined) (o : Operations)
    (s : Store) : (step o code c s).Marked code := by
  unfold Machine.step
  cases hi : code[c.pc]? with
  | none => trivial
  | some i =>
    obtain ⟨ms,hms,hlen⟩ := h
    obtain ⟨_,ms',hms₁,hmark,hnext⟩ := hc.marksAt hi
    obtain rfl := Option.some.inj (hms.symm.trans hms₁)
    have hsuits := exec_suits o c.slots s hmark hlen
    simp only
    cases he : exec o c.slots s c.stack i with
    | go stack a t =>
      rw [he] at hsuits
      exact ⟨ms',hnext,hsuits⟩
    | jump l stack =>
      rw [he] at hsuits
      simp only [follow]
      split
      · next n hn => exact ⟨[],hc.marksAt_label (getElem?_of_target? hn),by simpa [Effect.Suits] using hsuits⟩
      · trivial
    | call target args returns stack =>
      rw [he] at hsuits
      intro v d hd
      obtain ⟨hpc,_,hlen'⟩ := Config.resume_eq_some hd
      exact ⟨ms',by rwa [hpc],hlen'.trans hsuits⟩
    | ret | trap => trivial
    | underflow => rw [he] at hsuits; exact hsuits

theorem Config.Marked.steps {n : Nat} (h : c.Marked code) (hc : code.Disciplined)
    (hs : Steps o code n c s d t) : d.Marked code := by
  induction hs with
  | refl => exact h
  | @succ _ c _ _ s _ _ hstep _ ih =>
    have hnext := h.step hc o s
    rw [hstep] at hnext
    exact ih hnext

/-- Disciplined code never finds too few values on the stack. -/
theorem Config.Marked.safe (h : c.Marked code) (hc : code.Disciplined) (o : Operations)
    (s : Store) : Safe o code c s := by
  refine ⟨fun c _ => c.Marked code,h,?_⟩
  rintro c s hcm a t ⟨n,d,hd,ha,_⟩
  have hstep := (hcm.steps hc hd).step hc o t
  rw [ha] at hstep
  refine ⟨?_,?_⟩
  · rintro rfl
    exact hstep
  · rintro target args returns k rfl v e _ he
    exact hstep v e he

theorem marked_enter (r : RoutineCode) (args : List Value) : (enter r args).Marked r.code :=
  ⟨[],Code.marksAt_zero _,rfl⟩

end marked

end Machine
end StackCompiler
