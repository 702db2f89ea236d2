import Mathlib.Data.List.Forall2
import Mathlib.Data.List.Perm.Subperm
import StackCompiler.Optimize.Liveness
import StackCompiler.Proofs.Machine

/-! What the sets of live slots mean.
Rounds only add slots, and only slots that the code uses, so the allowed number of rounds is enough
to come to sets that another round does not change. In those sets a slot that is used is live, and
a slot that is live after an instruction is live before it unless the instruction defines it. -/
namespace StackCompiler

namespace SlotSet

def Ascending (xs : SlotSet) : Prop := xs.Pairwise (· < ·)

theorem Ascending.insert {xs : SlotSet} (h : xs.Ascending) (s : Slot) :
    Ascending (SlotSet.insert s xs) := by
  induction xs with
  | nil => exact List.pairwise_singleton _ _
  | cons x xs ih =>
    have hx := List.pairwise_cons.mp h
    rw [SlotSet.insert]
    split
    · next hs =>
      refine List.pairwise_cons.mpr ⟨fun y hy => ?_,h⟩
      rcases List.mem_cons.mp hy with rfl | hy
      · exact hs
      · exact Nat.lt_trans hs (hx.1 y hy)
    · next hs =>
      split
      · exact h
      · next hne =>
        refine List.pairwise_cons.mpr ⟨fun y hy => ?_,ih hx.2⟩
        rcases (mem_insert s y xs).mp hy with rfl | hy
        · exact Nat.lt_of_le_of_ne (Nat.le_of_not_lt hs) (Ne.symm hne)
        · exact hx.1 y hy

theorem Ascending.erase {xs : SlotSet} (h : xs.Ascending) (s : Slot) :
    Ascending (SlotSet.erase s xs) :=
  h.sublist List.filter_sublist

theorem Ascending.union {xs ys : SlotSet} (h : ys.Ascending) : Ascending (SlotSet.union xs ys) := by
  induction xs with
  | nil => exact h
  | cons x xs ih => exact Ascending.insert ih x

theorem Ascending.nodup {xs : SlotSet} (h : xs.Ascending) : xs.Nodup :=
  h.imp fun hlt => Nat.ne_of_lt hlt

theorem Ascending.length_le {xs ys : SlotSet} (h : xs.Ascending) (hsub : xs ⊆ ys) :
    xs.length ≤ ys.length :=
  (List.subperm_of_subset h.nodup hsub).length_le

/-- A set that contains another and is not larger is the same. -/
theorem Ascending.eq_of_subset {xs ys : SlotSet} (hx : xs.Ascending) (hy : ys.Ascending)
    (hsub : xs ⊆ ys) (hlen : ys.length ≤ xs.length) : xs = ys := by
  have hperm := (List.subperm_of_subset hx.nodup hsub).perm_of_length_le hlen
  exact List.Perm.eq_of_pairwise (fun _ _ _ _ hab hba => absurd hba (Nat.lt_asymm hab)) hx hy hperm

end SlotSet

namespace Liveness

open SlotSet

theorem mem_before {i : Instr} {set : SlotSet} {x : Slot} :
    x ∈ before i set ↔ i.used? = some x ∨ x ∈ set ∧ i.defined? ≠ some x := by
  unfold before
  cases hd : i.defined? <;> cases hu : i.used? <;> simp [eq_comm]

theorem before_mono (i : Instr) {a b : SlotSet} (h : a ⊆ b) : before i a ⊆ before i b := by
  intro x hx
  rw [mem_before] at hx ⊢
  exact hx.imp_right fun hx => ⟨h hx.1,hx.2⟩

theorem after_mono (i : Instr) {f g : Label → SlotSet} {a b : SlotSet} (hfg : ∀ l, f l ⊆ g l)
    (h : a ⊆ b) : after f a i ⊆ after g b i := by
  intro x hx
  cases i with
  | branch l => exact hfg l hx
  | branchIf flag l =>
    simp only [after,mem_union] at hx ⊢
    exact hx.imp (fun hx => h hx) fun hx => hfg l hx
  | ret => cases hx
  | _ => exact h hx

theorem ascending_before {set : SlotSet} (h : set.Ascending) (i : Instr) :
    (before i set).Ascending := by
  unfold before
  cases i.defined? <;> cases i.used?
  · exact h
  · exact h.insert _
  · exact h.erase _
  · exact (h.erase _).insert _

theorem ascending_after {labels : Label → SlotSet} {next : SlotSet} (hl : ∀ l, (labels l).Ascending)
    (h : next.Ascending) (i : Instr) : (after labels next i).Ascending := by
  cases i with
  | branch l => exact hl l
  | branchIf flag l => exact (hl l).union
  | ret => exact List.Pairwise.nil
  | _ => exact h

theorem after_subset {labels : Label → SlotSet} {next all : SlotSet} (hl : ∀ l, labels l ⊆ all)
    (h : next ⊆ all) (i : Instr) : after labels next i ⊆ all := by
  intro x hx
  cases i with
  | branch l => exact hl l hx
  | branchIf flag l => exact ((mem_union x _ _).mp hx).elim (fun hx => h hx) fun hx => hl l hx
  | ret => cases hx
  | _ => exact h hx

abbrev Below (xs ys : List SlotSet) : Prop := List.Forall₂ (· ⊆ ·) xs ys

theorem Below.headD {xs ys : List SlotSet} (h : Below xs ys) : xs.headD [] ⊆ ys.headD [] := by
  cases h with
  | nil => exact fun _ h => h
  | cons h _ => exact h

theorem Below.getD {xs ys : List SlotSet} (h : Below xs ys) (n : Nat) :
    xs.getD n [] ⊆ ys.getD n [] := by
  induction h generalizing n with
  | nil => exact fun _ h => h
  | cons h _ ih => cases n with
    | zero => exact h
    | succ n => exact ih n

theorem lt_length_of_mem_getD {live : List SlotSet} {x : Slot} {pc : Nat}
    (h : x ∈ live.getD pc []) : pc < live.length := by
  by_contra hge
  rw [List.getD_eq_getElem?_getD,List.getElem?_eq_none (Nat.le_of_not_lt hge)] at h
  cases h

theorem sweep_mono {f g : Label → SlotSet} (hfg : ∀ l, f l ⊆ g l) (code : Code) :
    Below (sweep f code) (sweep g code) := by
  induction code with
  | nil => exact .nil
  | cons i rest ih => exact .cons (before_mono i (after_mono i hfg ih.headD)) ih

theorem find_label {code : Code} {live : List SlotSet} (hlen : live.length = code.length)
    (l : Label) : (code.zip live).reverse.find? (·.1 == .label l) =
      (Machine.target? l code).map fun n => (.label l,live.getD n []) := by
  induction code generalizing live with
  | nil => rfl
  | cons i rest ih => cases live with
    | nil => simp at hlen
    | cons set live =>
      rw [List.zip_cons_cons,List.reverse_cons,List.find?_append,ih (by simpa using hlen),
        Machine.target?]
      cases Machine.target? l rest with
      | some n => simp
      | none =>
        by_cases hi : i = .label l
        · simp [hi]
        · simp [hi]

/-- The set of a label is the one at the position that a branch to it reaches. -/
theorem atLabel_eq {code : Code} {live : List SlotSet} (hlen : live.length = code.length)
    (l : Label) :
    atLabel code live l = ((Machine.target? l code).map fun n => live.getD n []).getD [] := by
  unfold atLabel
  rw [find_label hlen]
  cases Machine.target? l code <;> rfl

theorem round_mono {code : Code} {xs ys : List SlotSet} (hlen : xs.length = code.length)
    (h : Below xs ys) : Below (round code xs) (round code ys) := by
  refine sweep_mono (fun l => ?_) code
  rw [atLabel_eq hlen,atLabel_eq (h.length_eq ▸ hlen)]
  cases Machine.target? l code with
  | none => exact fun _ h => h
  | some n => exact h.getD n

def used (code : Code) : List Slot := code.filterMap Instr.used?

structure Proper (code : Code) (live : List SlotSet) : Prop where
  length : live.length = code.length
  ascending : ∀ set ∈ live, set.Ascending
  used : ∀ set ∈ live, set ⊆ used code

theorem Proper.getD {code : Code} {live : List SlotSet} (h : Proper code live) (n : Nat) :
    (live.getD n []).Ascending ∧ live.getD n [] ⊆ Liveness.used code := by
  rw [List.getD_eq_getElem?_getD]
  cases hn : live[n]? with
  | none => exact ⟨List.Pairwise.nil,fun _ h => by cases h⟩
  | some set =>
    have hmem := List.mem_of_getElem? hn
    exact ⟨h.ascending set hmem,h.used set hmem⟩

theorem proper_sweep {all : Code} {labels : Label → SlotSet}
    (hl : ∀ l, (labels l).Ascending ∧ labels l ⊆ used all) {code : Code} (hcode : code <:+ all) :
    ∀ set ∈ sweep labels code, set.Ascending ∧ set ⊆ used all := by
  induction code with
  | nil => simp [sweep]
  | cons i rest ih =>
    have hrest := ih ((List.suffix_cons i rest).trans hcode)
    have hhead : ((sweep labels rest).headD []).Ascending ∧
        (sweep labels rest).headD [] ⊆ used all := by
      cases hs : sweep labels rest with
      | nil => exact ⟨List.Pairwise.nil,fun _ h => by cases h⟩
      | cons set sets =>
        rw [hs] at hrest
        exact hrest set List.mem_cons_self
    intro set hset
    rcases List.mem_cons.mp hset with rfl | hset
    · refine ⟨ascending_before (ascending_after (fun l => (hl l).1) hhead.1 i) i,fun x hx => ?_⟩
      rcases mem_before.mp hx with hx | ⟨hx,_⟩
      · exact List.mem_filterMap.mpr ⟨i,hcode.subset List.mem_cons_self,hx⟩
      · exact after_subset (fun l => (hl l).2) hhead.2 i hx
    · exact hrest set hset

theorem proper_round {code : Code} {live : List SlotSet} (h : Proper code live) :
    Proper code (round code live) := by
  have hl : ∀ l, (atLabel code live l).Ascending ∧ atLabel code live l ⊆ used code := by
    intro l
    rw [atLabel_eq h.length]
    cases Machine.target? l code with
    | none => exact ⟨List.Pairwise.nil,fun _ h => by cases h⟩
    | some n => exact h.getD n
  have hsets := proper_sweep hl (List.suffix_refl code)
  exact ⟨length_round code live,fun set hset => (hsets set hset).1,fun set hset => (hsets set hset).2⟩

def size : List SlotSet → Nat
  | [] => 0
  | set :: live => set.length + size live

theorem size_le_mul {live : List SlotSet} {k : Nat} (h : ∀ set ∈ live, set.length ≤ k) :
    size live ≤ live.length * k := by
  induction live with
  | nil => exact Nat.zero_le _
  | cons set live ih =>
    have hfirst := h set List.mem_cons_self
    have hrest := ih fun set hset => h set (List.mem_cons_of_mem _ hset)
    simp only [size,List.length_cons,Nat.succ_mul]
    omega

theorem size_le {code : Code} {live : List SlotSet} (h : Proper code live) :
    size live ≤ code.length * code.length := by
  refine h.length ▸ size_le_mul fun set hset => ?_
  calc set.length ≤ (used code).length := (h.ascending set hset).length_le (h.used set hset)
    _ ≤ code.length := List.length_filterMap_le _ _
    _ = live.length := h.length.symm

/-- Sets that are contained in others and are not the same hold fewer slots. -/
theorem size_lt {xs ys : List SlotSet} (hx : ∀ set ∈ xs, set.Ascending)
    (hy : ∀ set ∈ ys, set.Ascending) (h : Below xs ys) (hne : xs ≠ ys) : size xs < size ys := by
  induction h with
  | nil => exact absurd rfl hne
  | @cons a b xs ys hab hrest ih =>
    have ha := hx a List.mem_cons_self
    have hb := hy b List.mem_cons_self
    have hxs : ∀ set ∈ xs, set.Ascending := fun set h => hx set (List.mem_cons_of_mem _ h)
    have hys : ∀ set ∈ ys, set.Ascending := fun set h => hy set (List.mem_cons_of_mem _ h)
    have hfirst := ha.length_le hab
    simp only [size]
    by_cases heq : xs = ys
    · subst heq
      have hlt : a.length < b.length := by
        rcases Nat.lt_or_ge a.length b.length with hlt | hge
        · exact hlt
        · exact absurd (congrArg (· :: xs) (ha.eq_of_subset hb hab hge)) hne
      omega
    · have hlt := ih hxs hys heq
      omega

/-- Enough rounds come to sets that another round does not change. -/
theorem round_settle {code : Code} (n : Nat) {live : List SlotSet} (h : Proper code live)
    (hbelow : Below live (round code live)) (hn : code.length * code.length < size live + n) :
    round code (settle code n live) = settle code n live := by
  induction n generalizing live with
  | zero => exact absurd (size_le h) (by omega)
  | succ n ih =>
    rw [settle]
    split
    · next heq => exact heq
    · next hne =>
      have hproper := proper_round h
      have hlt := size_lt h.ascending hproper.ascending hbelow (Ne.symm hne)
      exact ih hproper (round_mono h.length hbelow) (by omega)

theorem proper_settle {code : Code} (n : Nat) {live : List SlotSet} (h : Proper code live) :
    Proper code (settle code n live) := by
  induction n generalizing live with
  | zero => exact h
  | succ n ih =>
    rw [settle]
    split
    · exact h
    · exact ih (proper_round h)

theorem getD_sweep (labels : Label → SlotSet) {code : Code} {pc : Nat} {i : Instr}
    (hi : code[pc]? = some i) : (sweep labels code).getD pc [] =
      before i (after labels ((sweep labels code).getD (pc + 1) []) i) := by
  induction code generalizing pc with
  | nil => cases hi
  | cons j rest ih =>
    cases pc with
    | zero =>
      obtain rfl : j = i := Option.some.inj hi
      rw [sweep]
      cases sweep labels rest <;> rfl
    | succ pc => exact ih hi

end Liveness

namespace Code

theorem proper_empty (code : Code) : Liveness.Proper code (code.map fun _ => []) := by
  have hempty : ∀ set ∈ code.map fun _ => ([] : SlotSet), set = [] := by
    intro set hset
    obtain ⟨_,_,rfl⟩ := List.mem_map.mp hset
    rfl
  refine ⟨List.length_map _,fun set hset => ?_,fun set hset => ?_⟩
  · rw [hempty set hset]
    exact List.Pairwise.nil
  · rw [hempty set hset]
    exact List.nil_subset _

theorem round_liveness (code : Code) : Liveness.round code code.liveness = code.liveness := by
  refine Liveness.round_settle _ code.proper_empty ?_ (by omega)
  refine List.forall₂_iff_get.mpr ⟨by simp,fun n hn _ => ?_⟩
  simp

theorem proper_liveness (code : Code) : Liveness.Proper code code.liveness :=
  Liveness.proper_settle _ code.proper_empty

def liveAt (code : Code) (pc : Nat) : SlotSet := code.liveness.getD pc []

variable {code : Code} {pc : Nat} {i : Instr} {x : Slot}

theorem liveAt_subset_used (code : Code) (pc : Nat) : code.liveAt pc ⊆ Liveness.used code :=
  (code.proper_liveness.getD pc).2

theorem liveAt_eq (hi : code[pc]? = some i) : code.liveAt pc =
    Liveness.before i (Liveness.after (Liveness.atLabel code code.liveness) (code.liveAt (pc + 1)) i) := by
  have hround : Liveness.sweep (Liveness.atLabel code code.liveness) code = code.liveness :=
    code.round_liveness
  have h := Liveness.getD_sweep (Liveness.atLabel code code.liveness) hi
  rwa [hround] at h

theorem mem_liveAt_of_used (hi : code[pc]? = some i) (hu : i.used? = some x) :
    x ∈ code.liveAt pc := by
  rw [liveAt_eq hi,Liveness.mem_before]
  exact .inl hu

/-- Where control goes on, what is live next is live now unless the instruction defines it. -/
theorem mem_liveAt_of_next (hi : code[pc]? = some i) (hflow : i.endsFlow = false)
    (hx : x ∈ code.liveAt (pc + 1)) (hd : i.defined? ≠ some x) : x ∈ code.liveAt pc := by
  rw [liveAt_eq hi,Liveness.mem_before]
  refine .inr ⟨?_,hd⟩
  cases i with
  | branchIf flag l => exact (SlotSet.mem_union x _ _).mpr (.inl hx)
  | branch | ret => cases hflow
  | _ => exact hx

theorem mem_liveAt_of_jump {l : Label} {n : Nat} (hi : code[pc]? = some i)
    (hl : i.target? = some l) (hn : Machine.target? l code = some n) (hx : x ∈ code.liveAt n) :
    x ∈ code.liveAt pc := by
  have hlabel : x ∈ Liveness.atLabel code code.liveness l := by
    rw [Liveness.atLabel_eq code.length_liveness,hn]
    exact hx
  rw [liveAt_eq hi,Liveness.mem_before]
  cases i with
  | branch =>
    cases hl
    exact .inr ⟨hlabel,by simp [Instr.defined?]⟩
  | branchIf =>
    cases hl
    exact .inr ⟨(SlotSet.mem_union x _ _).mpr (.inr hlabel),by simp [Instr.defined?]⟩
  | _ => cases hl

end Code

end StackCompiler
