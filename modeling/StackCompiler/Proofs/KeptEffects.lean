import StackCompiler.Proofs.Heights
import StackCompiler.Proofs.References

/-! What keeping values does to the effects of a routine.
A stretch of code from the start of a value to its operator is replaced as a whole, so whatever else
stands in it is lost. In tidy blocks there is nothing else. Labels, branches, returns and calls are
never lost: a stretch lies in one block, and no value could be kept during a call. -/
namespace StackCompiler

namespace Instr

/-- The instruction does more than to compute on the stack. -/
def isEffect : Instr → Bool
  | const _ | load _ | unary .. | convert | binary .. | dup | pop => false
  | _ => true

/-- The instruction transfers control, or is where control may come from elsewhere. -/
def transfers (i : Instr) : Bool := i.isBoundary || i.isCall

instance (calls : Prop) [Decidable calls] (i : Instr) (st : List Mark) :
    Decidable (i.Tidy calls st) :=
  decidable_of_iff ((i.leavesEmpty = true → ¬(calls ∧ i.isCall = true) → i.remark st = []) ∧
    (i.isOperator = true → ∀ m ∈ st.take i.pops, m = .plain))
    ⟨fun h => ⟨h.1,h.2⟩,fun h => ⟨h.after,h.plain⟩⟩

end Instr

namespace Code

/-- Every basic block is tidy, but for values that wait during calls. The marks are those of the
values that the block has left on the stack so far. -/
def tidy : Code → List Mark → Bool
  | [], _ => true
  | i :: rest, st =>
    if i.isBoundary then tidy rest [] else decide (i.Tidy True st) && tidy rest (i.remark st)

theorem block_of_tidy {code : Code} (h : code.tidy [] = true) {n : Nat} (hn : n ≤ code.length) :
    ∃ st, Block True code n st ∧ tidy (code.drop n) st = true := by
  induction n with
  | zero => exact ⟨[],.entry,h⟩
  | succ n ih =>
    obtain ⟨st,hblock,hrest⟩ := ih (Nat.le_of_succ_le hn)
    have hi := List.getElem?_eq_getElem hn
    rw [List.drop_eq_getElem_cons hn,tidy] at hrest
    split at hrest
    · next hb => exact ⟨[],.boundary hi hb,hrest⟩
    · next hb =>
      obtain ⟨htidy,hrest⟩ := Bool.and_eq_true_iff.mp hrest
      exact ⟨_,.next hblock hi (Bool.not_eq_true _ ▸ hb) (of_decide_eq_true htidy),hrest⟩

end Code

theorem ValueKey.isEffect_code (k : ValueKey) : ∀ i ∈ k.code, i.isEffect = false := by
  induction k with
  | const | place => exact List.forall_mem_singleton.mpr rfl
  | unary _ _ _ ih | convert _ ih =>
    exact List.forall_mem_append.mpr ⟨ih,List.forall_mem_singleton.mpr rfl⟩
  | binary _ _ _ _ ihx ihy =>
    exact List.forall_mem_append.mpr
      ⟨List.forall_mem_append.mpr ⟨ihx,ihy⟩,List.forall_mem_singleton.mpr rfl⟩

namespace Patch

variable {f : Instr → Bool}

theorem filter_targets (ps : List Patch) (h : ∀ p ∈ ps, p.target.filter f = p.source.filter f) :
    (targets ps).filter f = (sources ps).filter f := by
  rw [targets,sources,List.filter_flatMap,List.filter_flatMap]
  exact List.flatMap_congr h

theorem filter_targets_sublist (ps : List Patch)
    (h : ∀ p ∈ ps, (p.target.filter f).Sublist (p.source.filter f)) :
    ((targets ps).filter f).Sublist ((sources ps).filter f) := by
  induction ps with
  | nil => exact .slnil
  | cons p ps ih =>
    rw [targets_cons,sources_cons,List.filter_append,List.filter_append]
    exact (h p List.mem_cons_self).append (ih fun q hq => h q (List.mem_cons_of_mem p hq))

end Patch

namespace RoutineCode

open Reuse

/-- The instruction writes one of the slots that are new when values are kept. -/
def fills (r : RoutineCode) : Instr → Bool
  | .store (.slot n) => r.frame.length ≤ n && n < r.reuseValues.routine.frame.length
  | _ => false

/-- The effects in code with kept values, but for what fills the new slots. -/
def effects (r : RoutineCode) (code : Code) : Code := code.filter fun i => i.isEffect && !r.fills i

section effects

variable {r : RoutineCode} {pc : Nat} {i : Instr}

theorem fills_of_lookup {f n : Nat} (h : r.cache.lookup f = some n) :
    r.fills (.store (.slot n)) = true := by
  simp [fills,le_of_lookup h,lookup_lt h]

/-- The effects of what stands for an instruction: its own, or none if it is inside a repeat. -/
theorem effects_replace (r : RoutineCode) (pc : Nat) (i : Instr) :
    (∃ x ∈ kept r.code, Repeat.covers x pc = true ∧
      r.effects (Reuse.replace (kept r.code) r.cache pc i) = []) ∨
    r.effects (Reuse.replace (kept r.code) r.cache pc i) = r.effects [i] := by
  cases hfind : (kept r.code).find? (Repeat.covers · pc) with
  | some x =>
    have hx := List.mem_of_find?_eq_some hfind
    have hcovers := List.find?_some hfind
    obtain ⟨n,hn⟩ := exists_lookup hx
    refine .inl ⟨x,hx,hcovers,?_⟩
    rw [replace_inside hx hcovers hn]
    split <;> rfl
  | none =>
    refine .inr ?_
    rw [replace_outside hfind]
    cases hn : r.cache.lookup pc with
    | none => rfl
    | some n => simp [effects,List.filter_cons,Instr.isEffect,fills_of_lookup hn]

theorem of_mem_reusePatches {p : Patch} (hp : p ∈ r.reusePatches) : ∃ pc i, r.code[pc]? = some i ∧
    p = ⟨[i],Reuse.replace (kept r.code) r.cache pc i⟩ := by
  obtain ⟨⟨i,pc⟩,hpc,rfl⟩ := List.mem_map.mp hp
  exact ⟨pc,i,List.mem_zipIdx_iff_getElem?.mp hpc,rfl⟩

theorem transfers_of_covers {x : Repeat} (hx : x ∈ kept r.code) (h : Repeat.covers x pc = true)
    (hi : r.code[pc]? = some i) : i.transfers = false := by
  obtain ⟨k,hk⟩ := repeats_of_kept hx
  obtain ⟨hle,hle'⟩ := covers_iff.mp h
  rw [Instr.transfers,isBoundary_of_covers hx h hi,hk.isCall_eq_false (first_lt_start hx) hle hle' hi]
  rfl

/-- In tidy code there is nothing inside a repeat but the code of a value. -/
theorem isEffect_of_covers (htidy : r.code.tidy [] = true) {x : Repeat} (hx : x ∈ kept r.code)
    (h : Repeat.covers x pc = true) (hi : r.code[pc]? = some i) : i.isEffect = false := by
  obtain ⟨k,hk⟩ := repeats_of_kept hx
  obtain ⟨hle,hle'⟩ := covers_iff.mp h
  obtain ⟨op,t,hop⟩ := hk.binary
  obtain ⟨st,hblock,_⟩ := Code.block_of_tidy htidy (n := x.stop + 1) hk.length
  obtain ⟨before,rfl⟩ := hblock.exists_remark hop rfl
  obtain ⟨hhas,hend⟩ := hk.has (first_lt_start hx) hblock
  exact k.isEffect_code i (hhas.mem hle (by omega) hi)

theorem effects_reuse_sublist (r : RoutineCode) :
    (r.effects r.reuseValues.routine.code).Sublist (r.effects r.code) := by
  have h := Patch.filter_targets_sublist (f := fun i => i.isEffect && !r.fills i) r.reusePatches ?_
  · rwa [targets_reusePatches,sources_reusePatches] at h
  · intro p hp
    obtain ⟨pc,i,_,rfl⟩ := of_mem_reusePatches hp
    change (r.effects (Reuse.replace _ _ pc i)).Sublist (r.effects [i])
    rcases r.effects_replace pc i with ⟨_,_,_,hnone⟩ | hsame
    · rw [hnone]
      exact List.nil_sublist _
    · rw [hsame]

theorem effects_reuse_of_tidy (htidy : r.code.tidy [] = true) :
    r.effects r.reuseValues.routine.code = r.effects r.code := by
  have h := Patch.filter_targets (f := fun i => i.isEffect && !r.fills i) r.reusePatches ?_
  · rwa [targets_reusePatches,sources_reusePatches] at h
  · intro p hp
    obtain ⟨pc,i,hi,rfl⟩ := of_mem_reusePatches hp
    rcases r.effects_replace pc i with ⟨x,hx,hcovers,hnone⟩ | hsame
    · have hpure := isEffect_of_covers htidy hx hcovers hi
      exact hnone.trans (by simp [hpure])
    · exact hsame

theorem transfers_reuse (r : RoutineCode) :
    r.reuseValues.routine.code.filter Instr.transfers = r.code.filter Instr.transfers := by
  have h := Patch.filter_targets (f := Instr.transfers) r.reusePatches ?_
  · rwa [targets_reusePatches,sources_reusePatches] at h
  · intro p hp
    obtain ⟨pc,i,hi,rfl⟩ := of_mem_reusePatches hp
    cases hfind : (kept r.code).find? (Repeat.covers · pc) with
    | some x =>
      have hx := List.mem_of_find?_eq_some hfind
      have hcovers := List.find?_some hfind
      obtain ⟨n,hn⟩ := exists_lookup hx
      simp only [replace_inside hx hcovers hn,List.filter_cons,transfers_of_covers hx hcovers hi]
      split <;> rfl
    | none =>
      simp only [replace_outside hfind]
      cases r.cache.lookup pc with
      | none => rfl
      | some n => simp [List.filter_cons,Instr.transfers,Instr.isBoundary,Instr.isCall]

end effects

end RoutineCode

/-- When values are kept no effect is added or moved, and no label, branch, return or call is lost. If
in every block what takes values off the stack for good leaves none there, calls apart, and no value
that was compared with bounds is an operand, no effect is lost at all. -/
theorem RoutineCode.effects_reuse (r : RoutineCode) :
    (r.effects r.reuseValues.routine.code).Sublist (r.effects r.code) ∧
    r.reuseValues.routine.code.filter Instr.transfers = r.code.filter Instr.transfers ∧
    (r.code.tidy [] = true → r.effects r.reuseValues.routine.code = r.effects r.code) :=
  ⟨r.effects_reuse_sublist,r.transfers_reuse,effects_reuse_of_tidy⟩

/-- Elements of two arrays with the same sum as subscript, and a value that waits during a call. -/
def lookingUp : RoutineCode where
  name := "LOOKUP"
  params := 2
  returns := .void
  frame := [⟨0,.scalar .integer,.parameter,["I"]⟩,⟨1,.scalar .integer,.parameter,["J"]⟩,
    ⟨2,.scalar .integer,.localVar,["X"]⟩]
  code := [.load (.slot 0),.const (.integer 1),.binary .add .integer,.checkBounds (.global "A") 0,
    .loadElement (.global "A") 1,.store (.slot 2),.load (.slot 0),.const (.integer 1),
    .binary .add .integer,.checkBounds (.global "B") 0,.loadElement (.global "B") 1,
    .call (.runtime "WRITE") 1 false,.load (.slot 0),.load (.slot 2),
    .call (.runtime "WRITE") 1 false,.load (.slot 1),.binary .add .integer,.store (.slot 2),.ret false]

theorem RoutineCode.effects_reuse_lookingUp :
    lookingUp.code.tidy [] = true ∧
      lookingUp.reuseValues.routine.code[8]? = some (.load (.slot 3)) ∧
      lookingUp.effects lookingUp.reuseValues.routine.code = lookingUp.effects lookingUp.code := by
  have htidy : lookingUp.code.tidy [] = true := by decide +kernel
  exact ⟨htidy,by decide +kernel,(RoutineCode.effects_reuse lookingUp).2.2 htidy⟩

namespace Code

/-- On every path every instruction finds the values it needs. -/
def StackSafe (code : Code) : Prop :=
  ∀ pc n i, code.Reaches Instr.height 0 pc n → code[pc]? = some i → i.needs ≤ n

/-- The instructions find the values they need one after the other, from a stack of the height. -/
def safeFrom : Code → Nat → Bool
  | [], _ => true
  | i :: rest, n => i.needs ≤ n && safeFrom rest (i.height n)

theorem stackSafe_of_safeFrom {code : Code} (hstraight : ∀ i ∈ code, i.target? = none)
    (h : code.safeFrom 0 = true) : code.StackSafe := by
  have hrest : ∀ pc n, code.Reaches Instr.height 0 pc n → safeFrom (code.drop pc) n = true := by
    intro pc n hreach
    induction hreach with
    | entry => exact h
    | next _ hi _ ih =>
      rw [List.drop_eq_getElem_cons (List.getElem?_eq_some_iff.mp hi).1,safeFrom,
        (List.getElem?_eq_some_iff.mp hi).2] at ih
      exact (Bool.and_eq_true_iff.mp ih).2
    | jump _ hi ht =>
      rw [hstraight _ (List.mem_of_getElem? hi)] at ht
      cases ht
  intro pc n i hreach hi
  have hfound := hrest pc n hreach
  rw [List.drop_eq_getElem_cons (List.getElem?_eq_some_iff.mp hi).1,safeFrom,
    (List.getElem?_eq_some_iff.mp hi).2] at hfound
  exact of_decide_eq_true (Bool.and_eq_true_iff.mp hfound).1

end Code

/-- The same sum twice, each time with an assignment between its operands. -/
def interleaved : RoutineCode where
  name := "INTER"
  params := 0
  returns := .void
  frame := [⟨0,.scalar .integer,.localVar,[]⟩,⟨1,.scalar .integer,.localVar,[]⟩,
    ⟨2,.scalar .integer,.localVar,[]⟩,⟨3,.scalar .integer,.localVar,[]⟩]
  code := [.load (.slot 0),.const (.integer 5),.store (.slot 2),.load (.slot 1),
    .binary .add .integer,.store (.slot 3),.load (.slot 0),.const (.integer 6),.store (.slot 2),
    .load (.slot 1),.binary .add .integer,.store (.slot 3),.ret false]

/-- The same sum twice, each time with its first operand compared with the bounds of an array. -/
def compared : RoutineCode where
  name := "COMPARE"
  params := 0
  returns := .void
  frame := [⟨0,.scalar .integer,.localVar,[]⟩,⟨1,.scalar .integer,.localVar,[]⟩,
    ⟨2,.scalar .integer,.localVar,[]⟩]
  code := [.load (.slot 0),.checkBounds (.global "A") 0,.load (.slot 1),.binary .add .integer,
    .store (.slot 2),.load (.slot 0),.checkBounds (.global "B") 0,.load (.slot 1),
    .binary .add .integer,.store (.slot 2),.ret false]

/-- What stands between the operands of the second sum is lost with it. -/
theorem RoutineCode.effects_interleaved :
    (interleaved.code.StackSafe ∧ interleaved.code.labels.Nodup ∧
      interleaved.effects interleaved.reuseValues.routine.code =
        [.store (.slot 2),.store (.slot 3),.store (.slot 3),.ret false] ∧
      interleaved.effects interleaved.code =
        [.store (.slot 2),.store (.slot 3),.store (.slot 2),.store (.slot 3),.ret false]) ∧
    compared.code.StackSafe ∧ compared.code.labels.Nodup ∧
      compared.effects compared.reuseValues.routine.code =
        [.checkBounds (.global "A") 0,.store (.slot 2),.store (.slot 2),.ret false] ∧
      compared.effects compared.code =
        [.checkBounds (.global "A") 0,.store (.slot 2),.checkBounds (.global "B") 0,
          .store (.slot 2),.ret false] :=
  ⟨⟨Code.stackSafe_of_safeFrom (by decide) (by decide),by decide,by decide +kernel,by decide +kernel⟩,
    Code.stackSafe_of_safeFrom (by decide) (by decide),by decide,by decide +kernel,by decide +kernel⟩

end StackCompiler
