import StackCompiler.Proofs.LoweredRoutines

/-! The height of the operand stack on every path through a routine.
A path starts at the first instruction, goes on to the next one unless control never does, and
follows branches to labels. -/
namespace StackCompiler

/-- Control can be before the instruction at a position in the given state, which every instruction
on the way has changed by its effect. -/
inductive Code.Reaches {α : Type} (effect : Instr → α → α) (start : α) (code : Code) :
    Nat → α → Prop
  | entry : Reaches effect start code 0 start
  | next {pc : Nat} {a : α} {i : Instr} (h : Reaches effect start code pc a)
    (hi : code[pc]? = some i) (hflow : i.endsFlow = false) :
    Reaches effect start code (pc + 1) (effect i a)
  | jump {pc n : Nat} {a : α} {i : Instr} {l : Label} (h : Reaches effect start code pc a)
    (hi : code[pc]? = some i) (ht : i.target? = some l) (hn : code[n]? = some (.label l)) :
    Reaches effect start code n (effect i a)

namespace Instr

/-- The discipline that an instruction demands of a stack with so many values. Only a return of a
value may find none. -/
structure Suits (i : Instr) (n : Nat) : Prop where
  enough : i ≠ ret true → i.needs ≤ n
  before : i.meetsEmpty = true → n = 0
  result : i = ret true → n ≤ 1
  after : i.leavesEmpty = true → i.height n = 0

theorem suits_of_mark {i : Instr} {ms ms' : List Mark} (h : i.mark ms = some ms') :
    i.Suits ms.length := by
  have hshaped := shaped_of_mark h
  refine ⟨hshaped.enough,fun hi => by rw [hshaped.before hi]; rfl,?_,fun hi => ?_⟩
  · rintro rfl
    obtain ⟨rfl | ⟨_,rfl⟩,_⟩ := mark_ret.mp h <;> simp
  · rw [← length_remark,hshaped.after hi]
    rfl

end Instr

/-- On every path the stack has the height that the checker finds. -/
theorem Code.Disciplined.marksAt_of_reaches {code : Code} (hc : code.Disciplined) {pc n : Nat}
    (h : code.Reaches Instr.height 0 pc n) : ∃ ms, code.marksAt pc = some ms ∧ ms.length = n := by
  induction h with
  | entry => exact ⟨[],marksAt_zero code,rfl⟩
  | next _ hi _ ih =>
    obtain ⟨ms,hms,rfl⟩ := ih
    obtain ⟨_,ms',hms₁,hmark,hnext⟩ := hc.marksAt hi
    obtain rfl := Option.some.inj (hms.symm.trans hms₁)
    exact ⟨ms',hnext,Instr.length_of_mark hmark⟩
  | jump _ hi ht hn ih =>
    obtain ⟨ms,hms,rfl⟩ := ih
    obtain ⟨_,ms',hms₁,hmark,_⟩ := hc.marksAt hi
    obtain rfl := Option.some.inj (hms.symm.trans hms₁)
    refine ⟨[],hc.marksAt_label hn,?_⟩
    rw [← Instr.length_remark,(Instr.shaped_of_mark hmark).remark_of_target ht]

/-- On every path through a routine of an accepted unit, every instruction finds a stack that suits
it. -/
theorem Lowering.suits_of_reaches {u : SourceUnit} {caseSensitive : Bool} {m : Module}
    (h : (Lowering.run u caseSensitive).2 = .ok m) {rc : RoutineCode} (hrc : rc ∈ m.routines)
    {pc n : Nat} {i : Instr} (hr : rc.code.Reaches Instr.height 0 pc n)
    (hi : rc.code[pc]? = some i) : i.Suits n := by
  have hc := (lowered_of_run h rc hrc).disciplined
  obtain ⟨ms,hms,rfl⟩ := hc.marksAt_of_reaches hr
  obtain ⟨_,ms',hms₁,hmark,_⟩ := hc.marksAt hi
  obtain rfl := Option.some.inj (hms.symm.trans hms₁)
  exact Instr.suits_of_mark hmark

/-- A loop that counts to three. -/
def counting : SourceUnit :=
  { name := "COUNT"
    language := .comal
    globals := [{ name := "N", base := .integer }]
    main := [.whileDo 1 (.binary 1 (.ident 1 "N") .lt (.literal 1 (.integer 3)))
      [.assign 2 { name := "N" } (.binary 2 (.ident 2 "N") .add (.literal 2 (.integer 1)))]] }

def countingCode : Code :=
  [.branch 1,.label 0,.load (.global "N"),.const (.integer 1),.binary .add .integer,
    .store (.global "N"),.label 1,.load (.global "N"),.const (.integer 3),
    .binary .lt .integer,.branchIf true 0,.ret false]

theorem reaches_comparison : countingCode.Reaches Instr.height 0 9 2 := by
  have htest : countingCode.Reaches Instr.height 0 6 0 := .jump .entry (i := .branch 1) rfl rfl rfl
  have hload : countingCode.Reaches Instr.height 0 7 0 := htest.next (i := .label 1) rfl rfl
  have hconst : countingCode.Reaches Instr.height 0 8 1 :=
    hload.next (i := .load (.global "N")) rfl rfl
  exact hconst.next (i := .const (.integer 3)) rfl rfl

theorem Lowering.suits_of_reaches_comparison :
    ∃ m, (Lowering.run counting true).2 = .ok m ∧ ∃ rc ∈ m.routines,
      rc.code.Reaches Instr.height 0 9 2 ∧ rc.code[9]? = some (.binary .lt .integer) ∧
      (Instr.binary .lt .integer).Suits 2 := by
  have hrun : (Lowering.run counting true).2 = .ok _ := rfl
  exact ⟨_,hrun,_,List.mem_cons_self,reaches_comparison,rfl,
    Lowering.suits_of_reaches hrun List.mem_cons_self reaches_comparison rfl⟩

end StackCompiler
