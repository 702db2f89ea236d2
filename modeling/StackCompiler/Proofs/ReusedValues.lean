import Mathlib.Data.List.Pairwise
import Mathlib.Data.List.Sort
import StackCompiler.Proofs.LoweredRoutines
import StackCompiler.Proofs.KnownValues
import StackCompiler.Proofs.ModuleRuns

/-! Loading a value that was kept instead of computing it again.
The stretches of code that are replaced lie apart, and none of them contains an evaluation whose
result is kept. So whenever control comes to one of them the value is in its slot. -/
namespace StackCompiler

open Machine

namespace Reuse

theorem insert_eq (x : Repeat) (xs : List Repeat) : insert x xs = xs.orderedInsert
    (fun a b => a.start < b.start ∨ (a.start = b.start ∧ b.stop ≤ a.stop)) x := by
  induction xs with
  | nil => rfl
  | cons y ys ih => rw [insert,List.orderedInsert_cons,ih]

theorem foldr_insert_perm (xs : List Repeat) : (xs.foldr insert []).Perm xs := by
  rw [funext₂ insert_eq]
  exact List.perm_insertionSort _ xs

theorem outermost_sublist (last : Option Nat) (xs : List Repeat) :
    (outermost last xs).Sublist xs := by
  induction xs generalizing last with
  | nil => exact .slnil
  | cons x xs ih =>
    cases last with
    | none => exact (ih _).cons_cons x
    | some stop =>
      rw [outermost]
      split
      · exact (ih _).cons x
      · exact (ih _).cons_cons x

theorem outermost_after {stop : Nat} {xs : List Repeat} (h : ∀ x ∈ xs, x.start ≤ x.stop) :
    ∀ x ∈ outermost (some stop) xs, stop < x.start := by
  induction xs generalizing stop with
  | nil => simp [outermost]
  | cons y ys ih =>
    have htail : ∀ x ∈ ys, x.start ≤ x.stop := fun x hx => h x (List.mem_cons_of_mem y hx)
    rw [outermost]
    split
    · exact ih htail
    · next hlt =>
      intro x hx
      rcases List.mem_cons.mp hx with rfl | hx
      · exact Nat.lt_of_not_le hlt
      · have hy := h y List.mem_cons_self
        have hrest := ih htail x hx
        omega

/-- What is left after dropping the inner repeats lies apart. -/
theorem pairwise_outermost (last : Option Nat) {xs : List Repeat} (h : ∀ x ∈ xs, x.start ≤ x.stop) :
    (outermost last xs).Pairwise fun x y => x.stop < y.start := by
  induction xs generalizing last with
  | nil => exact List.Pairwise.nil
  | cons x xs ih =>
    have htail : ∀ y ∈ xs, y.start ≤ y.stop := fun y hy => h y (List.mem_cons_of_mem x hy)
    have hcons : (x :: outermost (some x.stop) xs).Pairwise fun x y => x.stop < y.start :=
      List.pairwise_cons.mpr ⟨outermost_after htail,ih (some x.stop) htail⟩
    cases last with
    | none => exact hcons
    | some stop =>
      rw [outermost]
      split
      · exact ih _ htail
      · exact hcons

section kept

variable {code : Code}

theorem mem_kept {x : Repeat} : x ∈ kept code ↔
    x ∈ outermost none ((repeats code).foldr insert []) ∧
      ∀ y ∈ outermost none ((repeats code).foldr insert []), Repeat.covers y x.first = false := by
  simp [kept,List.mem_filter]

theorem repeats_of_sorted {x : Repeat} (hx : x ∈ (repeats code).foldr insert []) :
    ∃ k, Repeat.Repeats code x k := by
  have hmem := (foldr_insert_perm _).mem_iff.mp hx
  rw [repeats_eq] at hmem
  exact repeats_scanAt (Nat.le_refl _) hmem

theorem repeats_of_kept {x : Repeat} (hx : x ∈ kept code) : ∃ k, Repeat.Repeats code x k :=
  repeats_of_sorted ((outermost_sublist _ _).subset (mem_kept.mp hx).1)

theorem pairwise_kept : (kept code).Pairwise fun x y => x.stop < y.start := by
  refine (pairwise_outermost none fun x hx => ?_).sublist List.filter_sublist
  obtain ⟨k,hk⟩ := repeats_of_sorted hx
  exact hk.start_le

/-- No evaluation whose result is kept lies inside a stretch that is replaced. -/
theorem covers_first {x y : Repeat} (hx : x ∈ kept code) (hy : y ∈ kept code) :
    Repeat.covers y x.first = false :=
  (mem_kept.mp hx).2 y (mem_kept.mp hy).1

theorem covers_iff {x : Repeat} {n : Nat} :
    Repeat.covers x n = true ↔ x.start ≤ n ∧ n ≤ x.stop := by
  simp [Repeat.covers]

/-- The first evaluation comes before the stretch that is replaced. -/
theorem first_lt_start {x : Repeat} (hx : x ∈ kept code) : x.first < x.start := by
  obtain ⟨k,hk⟩ := repeats_of_kept hx
  have hlt := hk.first_lt
  have hself := covers_first hx hx
  rw [← Bool.not_eq_true,covers_iff] at hself
  omega

/-- On a path the stretch of a repeat is the code of its value. -/
theorem Repeat.Repeats.has_of_visits {x : Repeat} {k : ValueKey} (hk : Repeat.Repeats code x k)
    (hcode : code.Shaped) (hfirst : x.first < x.start) {ms : List Mark}
    (hvisits : code.Visits x.start ms) :
    code.Has x.start k.code ∧ x.start + k.code.length = x.stop + 1 := by
  obtain ⟨n,hn⟩ := Nat.exists_eq_add_of_le hk.start_le
  have hlength := hk.length
  obtain ⟨st,hst⟩ := hvisits.along n (by omega) fun p i hp hlt =>
    hk.unbroken.2 p i hp (by omega)
  rw [← hn] at hst
  obtain ⟨op,t,hop⟩ := hk.binary
  exact hk.has hfirst (hcode.block_next hst hop rfl)

theorem kept_unique {x y : Repeat} (hx : x ∈ kept code) (hy : y ∈ kept code) {n : Nat}
    (hxn : Repeat.covers x n = true) (hyn : Repeat.covers y n = true) : x = y := by
  by_contra hne
  have hpair : (kept code).Pairwise fun x y => x.stop < y.start ∨ y.stop < x.start :=
    pairwise_kept.imp .inl
  have : Std.Symm fun x y : Repeat => x.stop < y.start ∨ y.stop < x.start := ⟨fun _ _ h => h.symm⟩
  have hapart := hpair.forall hx hy hne
  rw [covers_iff] at hxn hyn
  omega

theorem find?_covers {x : Repeat} (hx : x ∈ kept code) {n : Nat}
    (hn : Repeat.covers x n = true) : (kept code).find? (Repeat.covers · n) = some x := by
  cases hfind : (kept code).find? (Repeat.covers · n) with
  | none =>
    have hnone := List.find?_eq_none.mp hfind x hx
    exact absurd hn hnone
  | some y =>
    have hy := List.mem_of_find?_eq_some hfind
    have hyn := List.find?_some hfind
    rw [kept_unique hx hy hn hyn]

end kept

theorem mem_insertPosition {n m : Nat} {xs : List Nat} :
    m ∈ insertPosition n xs ↔ m = n ∨ m ∈ xs := by
  induction xs with
  | nil => simp [insertPosition]
  | cons x xs ih =>
    rw [insertPosition]
    split
    · simp
    · split
      · next h => simp [h]
      · rw [List.mem_cons,ih,List.mem_cons]
        exact or_left_comm

theorem mem_foldr_insertPosition {m : Nat} {xs : List Nat} :
    m ∈ xs.foldr insertPosition [] ↔ m ∈ xs := by
  induction xs with
  | nil => simp
  | cons x xs ih => rw [List.foldr_cons,mem_insertPosition,ih,List.mem_cons]

end Reuse

namespace RoutineCode

open Reuse

/-- The slots that keep the results of first evaluations, by their positions. -/
def cache (r : RoutineCode) : List (Nat × Slot) :=
  (Reuse.sources r.code (kept r.code)).zipIdx.map fun p => (p.1.1,r.frame.length + p.2)

variable {r : RoutineCode} {f n : Nat}

theorem mem_cache : (f,n) ∈ r.cache ↔
    ∃ j t, (Reuse.sources r.code (kept r.code))[j]? = some (f,t) ∧ n = r.frame.length + j := by
  simp only [cache,List.mem_map,Prod.exists,List.mem_zipIdx_iff_getElem?]
  constructor
  · rintro ⟨a,t,j,hj,he⟩
    cases he
    exact ⟨j,t,hj,rfl⟩
  · rintro ⟨j,t,hj,rfl⟩
    exact ⟨f,t,j,hj,rfl⟩

theorem mem_of_lookup (h : r.cache.lookup f = some n) : (f,n) ∈ r.cache := by
  obtain ⟨l₁,l₂,hl,_⟩ := List.lookup_eq_some_iff.mp h
  rw [hl]
  exact List.mem_append_right _ List.mem_cons_self

theorem le_of_lookup (h : r.cache.lookup f = some n) : r.frame.length ≤ n := by
  obtain ⟨j,_,_,rfl⟩ := mem_cache.mp (mem_of_lookup h)
  exact Nat.le_add_right _ _

theorem lookup_inj {g : Nat} (hf : r.cache.lookup f = some n) (hg : r.cache.lookup g = some n) :
    f = g := by
  obtain ⟨i,_,hi,rfl⟩ := mem_cache.mp (mem_of_lookup hf)
  obtain ⟨j,_,hj,he⟩ := mem_cache.mp (mem_of_lookup hg)
  obtain rfl := Nat.add_left_cancel he
  rw [hi] at hj
  cases hj
  rfl

theorem mem_sources {t : BaseType} : (f,t) ∈ Reuse.sources r.code (kept r.code) ↔
    (∃ x ∈ kept r.code, x.first = f) ∧
      ∃ op operand, r.code[f]? = some (.binary op operand) ∧ t = op.result operand := by
  simp only [Reuse.sources,List.mem_filterMap,mem_foldr_insertPosition,List.mem_map]
  constructor
  · rintro ⟨g,hg,h⟩
    split at h
    · next op operand hget =>
      cases h
      exact ⟨hg,op,operand,hget,rfl⟩
    · cases h
  · rintro ⟨hf,op,operand,hget,rfl⟩
    exact ⟨f,hf,by simp [hget]⟩

/-- Only results of binary operations that are needed again are kept. -/
theorem kept_of_lookup (h : r.cache.lookup f = some n) :
    (∃ x ∈ kept r.code, x.first = f) ∧ ∃ op operand, r.code[f]? = some (.binary op operand) := by
  obtain ⟨j,t,hj,_⟩ := mem_cache.mp (mem_of_lookup h)
  obtain ⟨hx,op,operand,hget,_⟩ := mem_sources.mp (List.mem_of_getElem? hj)
  exact ⟨hx,op,operand,hget⟩

theorem exists_lookup {x : Repeat} (hx : x ∈ kept r.code) :
    ∃ n, r.cache.lookup x.first = some n := by
  obtain ⟨k,hk⟩ := repeats_of_kept hx
  obtain ⟨_,op,operand,hget⟩ := available_scanAt (Nat.le_of_lt hk.length) hk.available
  obtain ⟨j,hj⟩ := List.getElem?_of_mem (mem_sources.mpr ⟨⟨x,hx,rfl⟩,op,operand,hget,rfl⟩)
  cases hl : r.cache.lookup x.first with
  | some n => exact ⟨n,rfl⟩
  | none =>
    have hnone := List.lookup_eq_none_iff.mp hl _ (mem_cache.mpr ⟨j,_,hj,rfl⟩)
    simp at hnone

def reusePatches (r : RoutineCode) : List Patch :=
  r.code.zipIdx.map fun p => ⟨[p.1],Reuse.replace (kept r.code) r.cache p.2 p.1⟩

def moved (r : RoutineCode) (pc : Nat) : Nat := (Patch.targets (r.reusePatches.take pc)).length

theorem sources_reusePatches (r : RoutineCode) : Patch.sources r.reusePatches = r.code := by
  rw [Patch.sources,reusePatches,List.flatMap_map]
  change r.code.zipIdx.flatMap (fun p => [p.1]) = r.code
  rw [← List.map_eq_flatMap,List.zipIdx_map_fst]

theorem targets_reusePatches (r : RoutineCode) :
    Patch.targets r.reusePatches = r.reuseValues.routine.code := by
  rw [Patch.targets,reusePatches,List.flatMap_map,List.flatMap_def]
  rfl

theorem getElem?_reusePatches {pc : Nat} {i : Instr} (hi : r.code[pc]? = some i) :
    r.reusePatches[pc]? = some ⟨[i],Reuse.replace (kept r.code) r.cache pc i⟩ := by
  simp [reusePatches,hi]

theorem moved_succ {pc : Nat} {i : Instr} (hi : r.code[pc]? = some i) :
    r.moved (pc + 1) = r.moved pc + (Reuse.replace (kept r.code) r.cache pc i).length := by
  rw [moved,List.take_add_one,getElem?_reusePatches hi]
  simp [moved]

theorem has_moved {pc : Nat} {i : Instr} (hi : r.code[pc]? = some i) :
    r.reuseValues.routine.code.Has (r.moved pc) (Reuse.replace (kept r.code) r.cache pc i) := by
  have hget := getElem?_reusePatches hi
  obtain ⟨hlt,hp⟩ := List.getElem?_eq_some_iff.mp hget
  have hsplit : r.reusePatches = r.reusePatches.take pc ++
      ⟨[i],Reuse.replace (kept r.code) r.cache pc i⟩ :: r.reusePatches.drop (pc + 1) := by
    rw [← hp]
    simp
  have htargets := congrArg Patch.targets hsplit
  rw [Patch.targets_append,Patch.targets_cons,targets_reusePatches] at htargets
  rw [htargets]
  exact Code.has_split _ _ _

theorem moved_length (r : RoutineCode) {pc : Nat} (h : r.code.length ≤ pc) :
    r.moved pc = r.reuseValues.routine.code.length := by
  rw [moved,List.take_of_length_le (by simpa [reusePatches] using h),targets_reusePatches]

/-- Nothing inside a stretch that is replaced starts or ends a basic block. -/
theorem isBoundary_of_covers {x : Repeat} (hx : x ∈ kept r.code) {pc : Nat}
    (h : Repeat.covers x pc = true) {i : Instr} (hi : r.code[pc]? = some i) :
    i.isBoundary = false := by
  obtain ⟨k,hk⟩ := repeats_of_kept hx
  rw [covers_iff] at h
  exact hk.unbroken.2 pc i h.1 (Nat.lt_succ_of_le h.2) hi

/-- What stands for an instruction outside the stretches that are replaced. -/
theorem replace_outside {pc : Nat} (h : (kept r.code).find? (Repeat.covers · pc) = none) (i : Instr) :
    Reuse.replace (kept r.code) r.cache pc i = match r.cache.lookup pc with
      | some n => [i,.dup,.store (.slot n)]
      | none => [i] := by
  cases hl : r.cache.lookup pc <;> simp [Reuse.replace,h,hl]

theorem replace_inside {x : Repeat} (hx : x ∈ kept r.code) {pc n : Nat}
    (h : Repeat.covers x pc = true) (hn : r.cache.lookup x.first = some n) (i : Instr) :
    Reuse.replace (kept r.code) r.cache pc i =
      if x.start = pc then [.load (.slot n)] else [] := by
  simp only [Reuse.replace,find?_covers hx h,hn]
  rfl

theorem replace_boundary {pc : Nat} {i : Instr} (hi : r.code[pc]? = some i)
    (hb : i.isBoundary = true) :
    Reuse.replace (kept r.code) r.cache pc i = [i] := by
  have hfind : (kept r.code).find? (Repeat.covers · pc) = none := by
    refine List.find?_eq_none.mpr fun x hx hcovers => ?_
    rw [isBoundary_of_covers hx hcovers hi] at hb
    cases hb
  rw [replace_outside hfind]
  cases hl : r.cache.lookup pc with
  | none => rfl
  | some n =>
    obtain ⟨_,op,operand,hget⟩ := kept_of_lookup hl
    rw [hi] at hget
    cases hget
    cases hb

theorem carries_reusePatches (r : RoutineCode) : ∀ p ∈ r.reusePatches, p.Carries := by
  intro p hp
  obtain ⟨⟨i,pc⟩,hpc,rfl⟩ := List.mem_map.mp hp
  have hi := List.mem_zipIdx_iff_getElem?.mp hpc
  simp only at hi ⊢
  by_cases hlabel : ∃ l, i = .label l
  · obtain ⟨l,rfl⟩ := hlabel
    exact .inl ⟨l,by rw [replace_boundary hi rfl]; rfl⟩
  · have hnone : i.label? = none := by
      cases i with
      | label l => exact absurd ⟨l,rfl⟩ hlabel
      | _ => rfl
    refine .inr ⟨by simp [hnone],?_⟩
    unfold Reuse.replace
    split
    · split
      · cases r.cache.lookup _ <;> rfl
      · rfl
    · split
      · rw [Code.labels_cons,hnone]
        rfl
      · simp [hnone]

theorem target?_reuse (r : RoutineCode) (l : Label) :
    target? l r.reuseValues.routine.code = (target? l r.code).map r.moved := by
  have hpatches := target?_patches (carries_reusePatches r) l
  rw [sources_reusePatches,targets_reusePatches] at hpatches
  rcases hpatches with ⟨hs,ht⟩ | ⟨before,after,hsplit,hs,ht⟩
  · rw [hs,ht]
    rfl
  · have htake : before = r.reusePatches.take before.length := by
      rw [hsplit,List.take_left]
    have hlength : (Patch.sources before).length = before.length := by
      refine Patch.length_sources fun p hp => ?_
      have hmem : p ∈ r.reusePatches := hsplit ▸ List.mem_append_left _ hp
      obtain ⟨_,_,rfl⟩ := List.mem_map.mp hmem
      rfl
    rw [hs,ht,hlength,Option.map_some,moved,← htake]

theorem labels_reuse (r : RoutineCode) :
    r.reuseValues.routine.code.labels = r.code.labels := by
  have h := Patch.labels_targets (carries_reusePatches r)
  rwa [sources_reusePatches,targets_reusePatches] at h

theorem moved_inside {x : Repeat} (hx : x ∈ kept r.code) {pc : Nat} (hlt : x.start < pc)
    (hle : pc ≤ x.stop + 1) : r.moved pc = r.moved x.start + 1 := by
  obtain ⟨k,hk⟩ := repeats_of_kept hx
  have hlength := hk.length
  obtain ⟨n,hn⟩ := exists_lookup hx
  induction pc with
  | zero => exact absurd hlt (Nat.not_lt_zero _)
  | succ pc ih =>
    have hi := List.getElem?_eq_getElem (show pc < r.code.length by omega)
    have hcovers : Repeat.covers x pc = true := covers_iff.mpr (by omega)
    rw [moved_succ hi,replace_inside hx hcovers hn]
    by_cases hstart : x.start = pc
    · rw [if_pos hstart,hstart]
      rfl
    · rw [if_neg hstart,ih (by omega) (by omega)]
      rfl

end RoutineCode

def RoutineCode.visible (r : RoutineCode) (slots : Slot → Value) : List Value :=
  (List.range r.frame.length).map slots

namespace Machine

open Reuse RoutineCode

/-- Two configurations at the same instruction, one in the code with kept values. -/
structure Mirrors (o : Operations) (r : RoutineCode) (c c' : Config) (s : Store) : Prop where
  informed : Informed o r.code c s
  place : c'.pc = r.moved c.pc
  outside : ∀ x ∈ kept r.code, Repeat.covers x c.pc = true → x.start = c.pc
  stack : c'.stack = c.stack
  slots : ∀ n < r.frame.length, c'.slots n = c.slots n
  cached : (∀ l, r.code[c.pc]? ≠ some (.label l)) → ∀ k f n, (k,f) ∈ (scanAt r.code c.pc).available →
    r.cache.lookup f = some n → k.eval o c.slots s = some (c'.slots n)

section reuse

variable {o : Operations} {r : RoutineCode} {c c' : Config} {s : Store}

theorem exec_congr {i : Instr} {n : Nat} (hi : i.Within n) {slots slots' : Slot → Value}
    (h : ∀ m < n, slots' m = slots m) (s : Store) (stack : List Value) :
    exec o slots' s stack i = exec o slots s stack i := by
  have hused : ∀ x, i.used? = some x → slots x = slots' (id x) := by
    intro x hx
    refine (h x ?_).symm
    have hslot : i.slot? = some x := by
      cases i with
      | store | alloc => cases hx
      | _ => exact hx
    obtain ⟨p,hp,hpx⟩ := Option.bind_eq_some_iff.mp hslot
    exact hi p hp x hpx
  have hsame : exec o slots' s stack (i.renumber id) = (exec o slots s stack i).renumber id :=
    exec_renumber hused
  have hinstr : i.renumber id = i := by
    cases i with
    | load p | store p | loadElement p | storeElement p | checkBounds p | alloc p =>
      cases p <;> rfl
    | _ => rfl
  have heffect : ∀ e : Effect, e.renumber id = e := by
    intro e
    cases e with
    | go stack assigned t => cases assigned <;> rfl
    | _ => rfl
  rwa [hinstr,heffect] at hsame

theorem Mirrors.view (h : Mirrors o r c c' s) : r.visible c.slots = r.visible c'.slots :=
  List.map_congr_left fun n hn => (h.slots n (List.mem_range.mp hn)).symm

/-- A stretch that is replaced: one side computes the value, the other loads it. -/
theorem Mirrors.repeated (h : Mirrors o r c c' s) (hcode : r.code.Shaped) {x : Repeat}
    (hx : x ∈ kept r.code) (hcovers : Repeat.covers x c.pc = true) :
    Follows o r.code r.reuseValues.routine.code (Mirrors o r) r.visible False (fun _ => 0) c c' s := by
  obtain ⟨k,hk⟩ := repeats_of_kept hx
  obtain ⟨n,hn⟩ := exists_lookup hx
  have hstart := h.outside x hx hcovers
  have hle := hk.start_le
  have hlength := hk.length
  have hi := List.getElem?_eq_getElem (show c.pc < r.code.length by omega)
  have hnotlabel := not_label_of_isBoundary hi (isBoundary_of_covers hx hcovers hi)
  obtain ⟨ms,hvisits,_⟩ := h.informed.values
  obtain ⟨hhas,hend⟩ := hk.has_of_visits hcode (first_lt_start hx) (hstart ▸ hvisits)
  rw [hstart] at hhas hend
  -- results that are kept were computed before the stretch
  have hbefore : ∀ k f n m, m ≤ r.code.length → c.pc ≤ m → f ≤ x.stop →
      r.cache.lookup f = some n → (k,f) ∈ (scanAt r.code m).available →
      k.eval o c.slots s = some (c'.slots n) := by
    intro k f n m hm hle hlt hlookup hav
    obtain ⟨⟨y,hy,rfl⟩,_⟩ := kept_of_lookup hlookup
    have hnot := covers_first hy hx
    rw [← Bool.not_eq_true,covers_iff] at hnot
    have hfirst : y.first < c.pc := by omega
    exact h.cached hnotlabel k y.first n (available_earlier hm hav hle hfirst) hlookup
  have hvalue := hbefore k x.first n x.stop (Nat.le_of_lt hlength) (hstart ▸ hle)
    (Nat.le_of_lt hk.first_lt) hn hk.available
  have hsteps := ValueKey.steps_code hhas hvalue c.stack
  obtain ⟨m,hm⟩ := Nat.exists_eq_succ_of_ne_zero (Nat.ne_of_gt k.code_length_pos)
  have hload : r.reuseValues.routine.code[c'.pc]? = some (.load (.slot n)) := by
    have hnew := has_moved hi
    rw [replace_inside hx hcovers hn,if_pos hstart,← h.place] at hnew
    exact (Code.has_cons.mp hnew).1
  have hinformed := h.informed.steps hcode hsteps
  rw [hend] at hsteps hinformed
  refine .inl ⟨m,_,s,1,_,hm ▸ hsteps,.go hload rfl (.refl _ _),?_,.inl Nat.one_pos⟩
  refine ⟨hinformed,?_,?_,?_,h.slots,?_⟩
  · rw [moved_inside hx (Nat.lt_succ_of_le hle) (Nat.le_refl _),hstart,h.place]
  · intro y hy hycovers
    change y.start = x.stop + 1
    by_contra hne
    replace hycovers : y.start ≤ x.stop + 1 ∧ x.stop + 1 ≤ y.stop := covers_iff.mp hycovers
    have hsame := kept_unique hx hy (covers_iff.mpr ⟨hle,Nat.le_refl _⟩)
      (covers_iff.mpr (show y.start ≤ x.stop ∧ x.stop ≤ y.stop by omega))
    subst hsame
    omega
  · rw [h.stack]
    rfl
  · intro _ k f n hav hlookup
    exact hbefore k f n (x.stop + 1) hlength (by omega)
      (Nat.le_of_lt_succ (available_scanAt hlength hav).1) hlookup hav

/-- The next instruction is outside every stretch that is replaced, or the first of one. -/
theorem outside_next {pc : Nat} (h : (kept r.code).find? (Repeat.covers · pc) = none) :
    ∀ x ∈ kept r.code, Repeat.covers x (pc + 1) = true → x.start = pc + 1 := by
  intro x hx hcovers
  have hnot := List.find?_eq_none.mp h x hx
  rw [covers_iff] at hcovers hnot
  omega

/-- What is kept still holds after an instruction that is not itself a first evaluation. -/
theorem Mirrors.cached_next (h : Mirrors o r c c' s) {i : Instr} (hi : r.code[c.pc]? = some i)
    {stack : List Value} {assigned : Option (Slot × Value)} {t : Store}
    (hgo : exec o c.slots s c.stack i = .go stack assigned t) {k : ValueKey} {f n : Nat}
    (hav : (k,f) ∈ (scanAt r.code (c.pc + 1)).available) (hn : r.cache.lookup f = some n)
    (hf : f ≠ c.pc) : k.eval o (assign c.slots assigned) t = some (c'.slots n) := by
  rw [scanAt_succ hi] at hav
  rcases available_step hav with ⟨hold,hspares⟩ | ⟨rfl,_⟩
  · rw [eval_of_go hspares hgo]
    refine h.cached (fun l hl => ?_) k f n hold hn
    obtain rfl := Option.some.inj (hi.symm.trans hl)
    cases hspares.boundary
  · exact absurd rfl hf

theorem exec_binary (o : Operations) (slots : Slot → Value) (s : Store) (stack : List Value)
    (op : BinaryOp) (b : BaseType) :
    (∃ w rest, exec o slots s stack (.binary op b) = .go (w :: rest) none s) ∨
      exec o slots s stack (.binary op b) = .trap ∨
      exec o slots s stack (.binary op b) = .underflow := by
  have h := executes_exec o slots s stack (.binary op b)
  generalize exec o slots s stack (.binary op b) = e at h ⊢
  cases h with
  | binary => exact .inl ⟨_,_,rfl⟩
  | trap => exact .inr (.inl rfl)
  | starved => exact .inr (.inr rfl)

theorem Mirrors.first (h : Mirrors o r c c' s) (hcode : r.code.Shaped)
    {op : BinaryOp} {b : BaseType} {n : Slot} (hi : r.code[c.pc]? = some (.binary op b))
    (hout : (kept r.code).find? (Repeat.covers · c.pc) = none) (hn : r.cache.lookup c.pc = some n) :
    Follows o r.code r.reuseValues.routine.code (Mirrors o r) r.visible False (fun _ => 0) c c' s := by
  have hnew := has_moved hi
  rw [replace_outside hout,hn,← h.place] at hnew
  obtain ⟨h₁,hnew⟩ := Code.has_cons.mp hnew
  obtain ⟨h₂,hnew⟩ := Code.has_cons.mp hnew
  obtain ⟨h₃,_⟩ := Code.has_cons.mp hnew
  have hstep := step_of_getElem? (o := o) (s := s) hi
  have hstep' := step_of_getElem? (o := o) (s := s) h₁
  have hsame : exec o c'.slots s c'.stack (.binary op b) = exec o c.slots s c.stack (.binary op b) := by
    rw [h.stack]
    rfl
  rw [hsame] at hstep'
  rcases exec_binary o c.slots s c.stack op b with ⟨w,rest,he⟩ | he | he
  · have hinformed := h.informed.go hcode hi he
    have hsteps' : Steps o r.reuseValues.routine.code 3 c' s
        ⟨c'.pc + 3,w :: rest,Function.update c'.slots n w⟩ s :=
      .go h₁ (hsame.trans he) (.go h₂ rfl (.go h₃ rfl (.refl _ _)))
    refine .inl ⟨0,_,s,3,_,.go hi he (.refl _ _),hsteps',?_,.inl (by decide)⟩
    have hslot := le_of_lookup hn
    refine ⟨hinformed,?_,outside_next hout,rfl,?_,?_⟩
    · rw [moved_succ hi,replace_outside hout,hn,h.place]
      rfl
    · intro m hm
      have hne : m ≠ n := Nat.ne_of_lt (Nat.lt_of_lt_of_le hm hslot)
      exact (Function.update_of_ne hne _ _).trans (h.slots m hm)
    · intro _ k f m hav hm
      by_cases hf : f = c.pc
      · subst hf
        obtain rfl := Option.some.inj (hn.symm.trans hm)
        obtain ⟨w',rest',hstack,hw⟩ := h.informed.eval_top hcode hi he hav
        obtain ⟨rfl,rfl⟩ := List.cons.inj hstack
        rw [hw]
        simp
      · have hne : m ≠ n := fun he => hf (lookup_inj hm (he ▸ hn))
        rw [h.cached_next hi he hav hm hf]
        exact congrArg some (Function.update_of_ne hne _ _).symm
  · rw [he] at hstep hstep'
    exact follows_now hstep hstep' rfl h.view trivial
  · rw [he] at hstep hstep'
    exact follows_now hstep hstep' rfl h.view trivial

theorem assign_below {slots slots' : Slot → Value} {bound : Nat}
    (h : ∀ m < bound, slots' m = slots m) (assigned : Option (Slot × Value)) :
    ∀ m < bound, assign slots' assigned m = assign slots assigned m := by
  intro m hm
  cases assigned with
  | none => exact h m hm
  | some p =>
    by_cases hp : m = p.1
    · simp [assign,hp]
    · simp [assign,Function.update_of_ne hp,h m hm]

theorem assign_above {slots : Slot → Value} {bound n : Nat} (hn : bound ≤ n)
    {assigned : Option (Slot × Value)} (h : ∀ p ∈ assigned, p.1 < bound) :
    assign slots assigned n = slots n := by
  cases assigned with
  | none => rfl
  | some p =>
    have hne : n ≠ p.1 := Nat.ne_of_gt (Nat.lt_of_lt_of_le (h p rfl) hn)
    simp [assign,Function.update_of_ne hne]

theorem defined_lt {i : Instr} {bound : Nat} (hi : i.Within bound)
    {assigned : Option (Slot × Value)} (h : assigned.map Prod.fst = i.defined?) :
    ∀ p ∈ assigned, p.1 < bound := by
  rintro p hp
  have hdef : i.defined? = some p.1 := by
    rw [← h,hp]
    rfl
  cases i with
  | store q | alloc q => exact hi q rfl p.1 hdef
  | _ => cases hdef

theorem Mirrors.label (h : Mirrors o r c c' s) {n : Nat} {l : Label}
    (hn : r.code[n]? = some (.label l)) {stack : List Value}
    (hinformed : Informed o r.code ⟨n,stack,c.slots⟩ s) :
    Mirrors o r ⟨n,stack,c.slots⟩ ⟨r.moved n,stack,c'.slots⟩ s := by
  refine ⟨hinformed,rfl,fun x hx hcovers => ?_,rfl,h.slots,fun hnot => absurd hn (hnot l)⟩
  cases isBoundary_of_covers hx hcovers hn

theorem Mirrors.plain (h : Mirrors o r c c' s) (hcode : r.code.Shaped)
    (hwithin : r.code.Within r.frame.length) {i : Instr} (hi : r.code[c.pc]? = some i)
    (hout : (kept r.code).find? (Repeat.covers · c.pc) = none) (hn : r.cache.lookup c.pc = none) :
    Follows o r.code r.reuseValues.routine.code (Mirrors o r) r.visible False (fun _ => 0) c c' s := by
  have hnew := has_moved hi
  rw [replace_outside hout,hn,← h.place] at hnew
  have hi' := (Code.has_cons.mp hnew).1
  have hbound := hwithin i (List.mem_of_getElem? hi)
  have hnext : c'.pc + 1 = r.moved (c.pc + 1) := by
    rw [moved_succ hi,replace_outside hout,hn,h.place]
    rfl
  have hstep := step_of_getElem? (o := o) (s := s) hi
  have hstep' := step_of_getElem? (o := o) (s := s) hi'
  rw [h.stack,exec_congr hbound h.slots] at hstep'
  have hfits := exec_fits o c.slots s c.stack i
  cases he : exec o c.slots s c.stack i with
  | go stack assigned t =>
    rw [he] at hstep hstep' hfits
    refine .inl ⟨0,_,t,1,_,.one hstep,.one hstep',?_,.inl Nat.one_pos⟩
    refine ⟨h.informed.go hcode hi he,hnext,outside_next hout,rfl,assign_below h.slots assigned,?_⟩
    intro _ k f m hav hm
    have hf : f ≠ c.pc := by
      rintro rfl
      rw [hn] at hm
      cases hm
    rw [h.cached_next hi he hav hm hf]
    exact congrArg some (assign_above (le_of_lookup hm) (defined_lt hbound hfits.1)).symm
  | jump l stack =>
    rw [he] at hstep hstep'
    simp only [follow,target?_reuse r] at hstep hstep'
    cases hl : target? l r.code with
    | none =>
      rw [hl] at hstep hstep'
      exact follows_now hstep hstep' rfl h.view trivial
    | some n =>
      rw [hl] at hstep hstep'
      exact .inl ⟨0,_,s,1,_,.one hstep,.one hstep',
        h.label (getElem?_of_target? hl) (h.informed.step hcode hstep),.inl Nat.one_pos⟩
  | call target args returns stack =>
    rw [he] at hstep hstep' hfits
    obtain ⟨argc,rfl⟩ := hfits
    refine follows_now hstep hstep' rfl h.view ⟨rfl,rfl,rfl,?_⟩
    intro v d t hd
    have hinformed := h.informed.resume hcode hi he hd (t := t)
    obtain ⟨hpc,hslots,_⟩ := Config.resume_eq_some hd
    refine ⟨_,Config.resume_elsewhere hd (c'.pc + 1) c'.slots,hinformed,?_,?_,rfl,?_,?_⟩
    · rw [hpc]
      exact hnext
    · rw [hpc]
      exact outside_next hout
    · rw [hslots]
      exact h.slots
    · intro _ k f m hav
      rw [hpc,scanAt_succ hi] at hav
      cases hav
  | ret v =>
    rw [he] at hstep hstep'
    exact follows_now hstep hstep' rfl h.view rfl
  | trap | underflow =>
    rw [he] at hstep hstep'
    exact follows_now hstep hstep' rfl h.view trivial

theorem Mirrors.follows (h : Mirrors o r c c' s) (hcode : r.code.Shaped)
    (hwithin : r.code.Within r.frame.length) :
    Follows o r.code r.reuseValues.routine.code (Mirrors o r) r.visible False (fun _ => 0) c c' s := by
  cases hi : r.code[c.pc]? with
  | none =>
    have hend := moved_length r (List.getElem?_eq_none_iff.mp hi)
    have hstep : step o r.code c s = .trap := by simp [step,hi]
    have hstep' : step o r.reuseValues.routine.code c' s = .trap := by
      simp [step,h.place,hend]
    exact follows_now hstep hstep' rfl h.view trivial
  | some i =>
    cases hfind : (kept r.code).find? (Repeat.covers · c.pc) with
    | some x =>
      have hcovers := List.find?_some hfind
      exact h.repeated hcode (List.mem_of_find?_eq_some hfind) hcovers
    | none =>
      cases hn : r.cache.lookup c.pc with
      | none => exact h.plain hcode hwithin hi hfind hn
      | some n =>
        obtain ⟨_,op,b,hbinary⟩ := kept_of_lookup hn
        exact h.first hcode hbinary hfind hn

end reuse

end Machine

namespace RoutineCode

variable {r : RoutineCode}

theorem prefix_temps (frame : Frame) (sources : List (Nat × BaseType)) :
    frame <+: sources.foldl (fun (f : Frame) p => f.temp (.scalar p.2)) frame := by
  induction sources generalizing frame with
  | nil => exact List.prefix_refl _
  | cons p rest ih => exact (Frame.grows_temp frame _).slots.trans (ih _)

theorem length_temps (frame : Frame) (sources : List (Nat × BaseType)) :
    (sources.foldl (fun (f : Frame) p => f.temp (.scalar p.2)) frame).length =
      frame.length + sources.length := by
  induction sources generalizing frame with
  | nil => rfl
  | cons p rest ih =>
    rw [List.foldl_cons,ih,Frame.temp,Frame.length_push,List.length_cons]
    omega

/-- Both sides at the start, with the same values in the slots of the frame. -/
theorem mirrors_start (o : Operations) (r : RoutineCode) {slots slots' : Slot → Value} (s : Store)
    (hslots : ∀ n < r.frame.length, slots' n = slots n) : Mirrors o r ⟨0,[],slots⟩ ⟨0,[],slots'⟩ s := by
  refine ⟨Reuse.informed_start rfl rfl,rfl,fun x _ hcovers => ?_,rfl,hslots,fun _ k f m hav => ?_⟩
  · exact Nat.le_zero.mp (Reuse.covers_iff.mp hcovers).1
  · cases hav

theorem mirrors_enter (o : Operations) (r : RoutineCode) (args : List Value) (s : Store) :
    Mirrors o r (enter r args) (enter r.reuseValues.routine args) s := by
  refine mirrors_start o r s fun n hn => ?_
  have hframe : r.reuseValues.routine.frame[n]? = r.frame[n]? := by
    obtain ⟨rest,hrest⟩ := prefix_temps r.frame (Reuse.sources r.code (Reuse.kept r.code))
    change (List.foldl _ _ _)[n]? = _
    rw [← hrest,List.getElem?_append_left hn]
  simp only [hframe]
  rfl

theorem Lowered.interchangeable_reuse (h : r.Lowered) (o : Operations) :
    Interchangeable o r r.reuseValues.routine :=
  fun args s => ⟨Mirrors o r,
    bisimulation_of_follows fun _ _ _ hm => hm.follows h.disciplined.shaped h.within,
    mirrors_enter o r args s⟩

end RoutineCode
end StackCompiler
