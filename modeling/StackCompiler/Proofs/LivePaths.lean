import Mathlib.Data.List.GetD
import StackCompiler.Proofs.LiveSlots

/-! The sets of live slots are exact.
A slot is live before an instruction exactly if some path of control leads from there to a use of the
slot without a definition on the way. No round adds a slot without such a path, and a set that a
round does not change misses none. Neither depends on the order in which the sets are recomputed:
rounds that change the sets in place come to an end as well, and with the same sets. -/
namespace StackCompiler

namespace Code

def usedAt (code : Code) (pc : Nat) : Option Slot := code[pc]?.bind Instr.used?

def definedAt (code : Code) (pc : Nat) : Option Slot := code[pc]?.bind Instr.defined?

def following (code : Code) (pc : Nat) : List Nat := if pc + 1 < code.length then [pc + 1] else []

/-- Where control can go from a position. A branch goes to the last definition of its label, and
nowhere if there is none. -/
def successors (code : Code) (pc : Nat) : List Nat :=
  match code[pc]? with
  | some (.branch l) => (Machine.target? l code).toList
  | some (.branchIf _ l) => code.following pc ++ (Machine.target? l code).toList
  | some (.ret _) | none => []
  | some _ => code.following pc

/-- The first `n` steps along the positions lead to a use of the slot, without a definition of it
before. -/
structure UsePath (code : Code) (x : Slot) (p : Nat → Nat) (n : Nat) : Prop where
  steps : ∀ k < n, p (k + 1) ∈ code.successors (p k)
  uses : code.usedAt (p n) = some x
  kept : ∀ k < n, code.definedAt (p k) ≠ some x

/-- A use of the slot can be reached from the position without a definition before it. -/
inductive Reads (code : Code) (x : Slot) : Nat → Prop
  | use {pc : Nat} (hu : code.usedAt pc = some x) : Reads code x pc
  | step {pc n : Nat} (hd : code.definedAt pc ≠ some x) (hn : n ∈ code.successors pc)
    (h : Reads code x n) : Reads code x pc

section paths

variable {code : Code} {x : Slot} {pc n : Nat} {i : Instr}

theorem usedAt_eq (hi : code[pc]? = some i) : code.usedAt pc = i.used? := by
  rw [usedAt,hi]
  rfl

theorem definedAt_eq (hi : code[pc]? = some i) : code.definedAt pc = i.defined? := by
  rw [definedAt,hi]
  rfl

theorem exists_of_usedAt (h : code.usedAt pc = some x) :
    ∃ i, code[pc]? = some i ∧ i.used? = some x :=
  Option.bind_eq_some_iff.mp h

theorem mem_successors (hi : code[pc]? = some i) : n ∈ code.successors pc ↔
    i.endsFlow = false ∧ n = pc + 1 ∧ n < code.length ∨
      ∃ l, i.target? = some l ∧ Machine.target? l code = some n := by
  have hnext : n ∈ code.following pc ↔ n = pc + 1 ∧ n < code.length := by
    unfold following
    split <;> simp <;> omega
  cases i <;> simp [successors,hi,hnext,Instr.endsFlow,Instr.target?]

theorem exists_of_mem_successors (h : n ∈ code.successors pc) : ∃ i, code[pc]? = some i := by
  cases hi : code[pc]? with
  | none => simp [successors,hi] at h
  | some i => exact ⟨i,rfl⟩

theorem Reads.lt (h : code.Reads x pc) : pc < code.length := by
  cases h with
  | use hu =>
    obtain ⟨i,hi,_⟩ := exists_of_usedAt hu
    exact (List.getElem?_eq_some_iff.mp hi).1
  | step _ hn _ =>
    obtain ⟨i,hi⟩ := exists_of_mem_successors hn
    exact (List.getElem?_eq_some_iff.mp hi).1

theorem Reads.exists_path (h : code.Reads x pc) : ∃ p n, p 0 = pc ∧ code.UsePath x p n := by
  induction h with
  | @use pc hu => exact ⟨fun _ => pc,0,rfl,by simp,hu,by simp⟩
  | @step pc m hd hm _ ih =>
    obtain ⟨p,n,rfl,hp⟩ := ih
    refine ⟨Nat.rec pc fun k _ => p k,n + 1,rfl,fun k hk => ?_,hp.uses,fun k hk => ?_⟩
    · cases k with
      | zero => exact hm
      | succ k => exact hp.steps k (Nat.lt_of_succ_lt_succ hk)
    · cases k with
      | zero => exact hd
      | succ k => exact hp.kept k (Nat.lt_of_succ_lt_succ hk)

theorem UsePath.reads {p : Nat → Nat} (h : code.UsePath x p n) : code.Reads x (p 0) := by
  induction n generalizing p with
  | zero => exact .use h.uses
  | succ n ih =>
    refine .step (h.kept 0 (Nat.succ_pos n)) (h.steps 0 (Nat.succ_pos n))
      (ih (p := fun k => p (k + 1)) ⟨?_,h.uses,?_⟩)
    · exact fun k hk => h.steps (k + 1) (Nat.succ_lt_succ hk)
    · exact fun k hk => h.kept (k + 1) (Nat.succ_lt_succ hk)

theorem reads_iff_exists_path : code.Reads x pc ↔ ∃ p n, p 0 = pc ∧ code.UsePath x p n := by
  refine ⟨Reads.exists_path,?_⟩
  rintro ⟨p,n,rfl,hp⟩
  exact hp.reads

end paths

end Code

theorem SlotSet.Ascending.ext {xs ys : SlotSet} (hx : xs.Ascending) (hy : ys.Ascending)
    (h : ∀ x, x ∈ xs ↔ x ∈ ys) : xs = ys :=
  hx.eq_of_subset hy (fun x => (h x).mp) (hy.length_le fun x => (h x).mpr)

namespace Liveness

open Code

variable {code : Code} {live : List SlotSet} {x : Slot} {pc n : Nat} {i : Instr}

def Sound (code : Code) (live : List SlotSet) : Prop :=
  ∀ pc x, x ∈ live.getD pc [] → code.Reads x pc

theorem mem_after {labels : Label → SlotSet} {next : SlotSet} : x ∈ after labels next i ↔
    i.endsFlow = false ∧ x ∈ next ∨ ∃ l, i.target? = some l ∧ x ∈ labels l := by
  cases i <;> simp [after,Instr.endsFlow,Instr.target?]

theorem mem_atLabel (hlen : live.length = code.length) {l : Label} :
    x ∈ atLabel code live l ↔ ∃ n, Machine.target? l code = some n ∧ x ∈ live.getD n [] := by
  rw [atLabel_eq hlen]
  cases Machine.target? l code <;> simp

theorem Sound.round (h : Sound code live) (hlen : live.length = code.length) :
    Sound code (round code live) := by
  intro pc x hx
  -- the set of the next position is that of the same round, so from the last position back
  induction hk : code.length - pc generalizing pc with
  | zero =>
    have hlt := lt_length_of_mem_getD hx
    rw [length_round] at hlt
    omega
  | succ k ih =>
    obtain ⟨i,hi⟩ : ∃ i, code[pc]? = some i := ⟨_,List.getElem?_eq_getElem (by omega)⟩
    rw [Liveness.round,getD_sweep _ hi,mem_before,mem_after] at hx
    rcases hx with hu | ⟨⟨hflow,hx⟩ | ⟨l,hl,hx⟩,hd⟩
    · exact .use ((usedAt_eq hi).trans hu)
    · have hlt := lt_length_of_mem_getD hx
      rw [length_sweep] at hlt
      have hn := (mem_successors hi).mpr (.inl ⟨hflow,rfl,hlt⟩)
      exact .step (definedAt_eq hi ▸ hd) hn (ih (pc + 1) hx (by omega))
    · obtain ⟨n,htarget,hx⟩ := (mem_atLabel hlen).mp hx
      exact .step (definedAt_eq hi ▸ hd) ((mem_successors hi).mpr (.inr ⟨l,hl,htarget⟩)) (h n x hx)

theorem Sound.settle (h : Sound code live) (hlen : live.length = code.length) (n : Nat) :
    Sound code (settle code n live) := by
  induction n generalizing live with
  | zero => exact h
  | succ n ih =>
    rw [Liveness.settle]
    split
    · exact h
    · exact ih (h.round hlen) (length_round code live)

theorem not_mem_empty (code : Code) (pc : Nat) (x : Slot) :
    x ∉ (code.map fun _ => ([] : SlotSet)).getD pc [] := by
  intro hx
  have hlt := lt_length_of_mem_getD hx
  rw [List.getD_eq_getElem _ _ hlt,List.getElem_map] at hx
  cases hx

theorem sound_empty (code : Code) : Sound code (code.map fun _ => []) :=
  fun pc x hx => absurd hx (not_mem_empty code pc x)

end Liveness

namespace Code

variable {code : Code} {x : Slot} {pc n : Nat}

theorem mem_liveAt_of_successor (hn : n ∈ code.successors pc) (hd : code.definedAt pc ≠ some x)
    (hx : x ∈ code.liveAt n) : x ∈ code.liveAt pc := by
  obtain ⟨i,hi⟩ := exists_of_mem_successors hn
  rw [definedAt_eq hi] at hd
  rcases (mem_successors hi).mp hn with ⟨hflow,rfl,_⟩ | ⟨l,hl,htarget⟩
  · exact mem_liveAt_of_next hi hflow hx hd
  · exact mem_liveAt_of_jump hi hl htarget hx

theorem mem_liveAt_iff_reads : x ∈ code.liveAt pc ↔ code.Reads x pc := by
  constructor
  · exact (Liveness.sound_empty code).settle (List.length_map _) _ pc x
  · intro h
    induction h with
    | use hu =>
      obtain ⟨i,hi,hu⟩ := exists_of_usedAt hu
      exact mem_liveAt_of_used hi hu
    | step hd hn _ ih => exact mem_liveAt_of_successor hn hd ih

end Code

namespace Liveness

open Code SlotSet

variable {code : Code} {live : List SlotSet} {x : Slot} {pc n : Nat}

def ahead (code : Code) (live : List SlotSet) (pc : Nat) : SlotSet :=
  (code.successors pc).foldr (fun n set => SlotSet.union (live.getD n []) set) []

/-- The set of a position from those of the positions where control can go. -/
def refresh (code : Code) (live : List SlotSet) (pc : Nat) : SlotSet :=
  match code[pc]? with
  | some i => before i (ahead code live pc)
  | none => []

/-- The sets of the first `n` positions are recomputed in place, the last one first. -/
def update (code : Code) : Nat → List SlotSet → List SlotSet
  | 0, live => live
  | n + 1, live => update code n (live.set n (refresh code live n))

/-- Rounds in place without any bound on their number, up to the first one that changes nothing. -/
inductive Loop (code : Code) : List SlotSet → List SlotSet → Prop
  | done {live : List SlotSet} (h : update code code.length live = live) : Loop code live live
  | again {live final : List SlotSet} (h : update code code.length live ≠ live)
    (hrest : Loop code (update code code.length live) final) : Loop code live final

theorem mem_ahead : x ∈ ahead code live pc ↔ ∃ n ∈ code.successors pc, x ∈ live.getD n [] := by
  unfold ahead
  induction code.successors pc with
  | nil => simp
  | cons n rest ih => rw [List.foldr_cons,mem_union,ih,List.exists_mem_cons_iff]

theorem mem_refresh : x ∈ refresh code live pc ↔ code.usedAt pc = some x ∨
    code.definedAt pc ≠ some x ∧ ∃ n ∈ code.successors pc, x ∈ live.getD n [] := by
  unfold refresh
  cases hi : code[pc]? with
  | none =>
    have hnone : ∀ n, n ∉ code.successors pc := by simp [successors,hi]
    simp [usedAt,hi,hnone]
  | some i => rw [usedAt_eq hi,definedAt_eq hi,mem_before,mem_ahead,and_comm]

theorem refresh_mono {ys : List SlotSet} (h : Below live ys) (pc : Nat) :
    refresh code live pc ⊆ refresh code ys pc := by
  intro x hx
  rw [mem_refresh] at hx ⊢
  rcases hx with hu | ⟨hd,n,hn,hx⟩
  · exact .inl hu
  · exact .inr ⟨hd,n,hn,h.getD n hx⟩

theorem ascending_refresh (code : Code) (live : List SlotSet) (pc : Nat) :
    (refresh code live pc).Ascending := by
  have hahead : (ahead code live pc).Ascending := by
    unfold ahead
    induction code.successors pc with
    | nil => exact List.Pairwise.nil
    | cons n rest ih => exact ih.union
  unfold refresh
  split
  · exact ascending_before hahead _
  · exact List.Pairwise.nil

theorem getD_set (live : List SlotSet) (n : Nat) (set : SlotSet) (pc : Nat) :
    (live.set n set).getD pc [] = if n = pc ∧ n < live.length then set else live.getD pc [] := by
  simp only [List.getD_eq_getElem?_getD,List.getElem?_set]
  by_cases heq : n = pc
  · by_cases hlt : n < live.length
    · simp [heq,heq ▸ hlt]
    · simp [heq,heq ▸ hlt]
  · simp [heq]

theorem Below.refl (xs : List SlotSet) : Below xs xs :=
  List.forall₂_same.mpr fun set _ => List.Subset.refl set

theorem below_set {set : SlotSet} (h : live.getD n [] ⊆ set) : Below live (live.set n set) := by
  induction live generalizing n with
  | nil => exact .nil
  | cons first rest ih =>
    cases n with
    | zero => exact .cons h (Below.refl rest)
    | succ n => exact .cons (List.Subset.refl first) (ih h)

theorem Below.trans {xs ys zs : List SlotSet} (h : Below xs ys) (h' : Below ys zs) : Below xs zs := by
  induction h generalizing zs with
  | nil => exact h'
  | cons hxy _ ih =>
    cases h' with
    | cons hyz hrest => exact .cons (List.Subset.trans hxy hyz) (ih hrest)

/-- Sets on the way: they hold only slots whose uses can be reached, and recomputing one of them
takes no slot away. -/
structure Underway (code : Code) (live : List SlotSet) : Prop extends Proper code live where
  sound : Sound code live
  rising : ∀ pc, live.getD pc [] ⊆ refresh code live pc

theorem Underway.refresh_subset_used (h : Underway code live) (pc : Nat) :
    refresh code live pc ⊆ used code := by
  intro x hx
  rcases mem_refresh.mp hx with hu | ⟨_,n,_,hx⟩
  · obtain ⟨i,hi,hu⟩ := exists_of_usedAt hu
    exact List.mem_filterMap.mpr ⟨i,List.mem_of_getElem? hi,hu⟩
  · exact (h.toProper.getD n).2 hx

theorem Underway.reads_of_mem_refresh (h : Underway code live) (hx : x ∈ refresh code live pc) :
    code.Reads x pc := by
  rcases mem_refresh.mp hx with hu | ⟨hd,n,hn,hx⟩
  · exact .use hu
  · exact .step hd hn (h.sound n x hx)

theorem Underway.set (h : Underway code live) (n : Nat) :
    Underway code (live.set n (refresh code live n)) ∧
      Below live (live.set n (refresh code live n)) := by
  have hbelow := below_set (h.rising n)
  refine ⟨⟨⟨?_,?_,?_⟩,?_,?_⟩,hbelow⟩
  · rw [List.length_set,h.length]
  · intro set hset
    rcases List.mem_or_eq_of_mem_set hset with hset | rfl
    · exact h.ascending set hset
    · exact ascending_refresh code live n
  · intro set hset
    rcases List.mem_or_eq_of_mem_set hset with hset | rfl
    · exact h.used set hset
    · exact h.refresh_subset_used n
  · intro pc x hx
    rw [getD_set] at hx
    split at hx
    · next heq => exact heq.1 ▸ h.reads_of_mem_refresh hx
    · exact h.sound pc x hx
  · intro pc x hx
    rw [getD_set] at hx
    refine refresh_mono hbelow pc ?_
    split at hx
    · next heq => exact heq.1 ▸ hx
    · exact h.rising pc hx

theorem Underway.update (h : Underway code live) (n : Nat) :
    Underway code (update code n live) ∧ Below live (update code n live) := by
  induction n generalizing live with
  | zero => exact ⟨h,Below.refl live⟩
  | succ n ih =>
    obtain ⟨hset,hbelow⟩ := h.set n
    obtain ⟨hupdate,hbelow'⟩ := ih hset
    exact ⟨hupdate,hbelow.trans hbelow'⟩

theorem getD_update (h : n ≤ pc) : (update code n live).getD pc [] = live.getD pc [] := by
  induction n generalizing live with
  | zero => rfl
  | succ n ih =>
    rw [Liveness.update,ih (by omega),getD_set,if_neg (by omega)]

/-- Where a round changes nothing, no set changes when it is recomputed. -/
theorem refresh_of_update (hlen : n ≤ live.length) (h : update code n live = live) :
    ∀ pc < n, refresh code live pc = live.getD pc [] := by
  induction n with
  | zero => exact fun pc hpc => absurd hpc (Nat.not_lt_zero pc)
  | succ n ih =>
    have hlast : refresh code live n = live.getD n [] := by
      have hget : (Liveness.update code (n + 1) live).getD n [] = refresh code live n := by
        rw [Liveness.update,getD_update n.le_refl,getD_set,if_pos ⟨rfl,hlen⟩]
      rw [← hget,h]
    have hsame : live.set n (refresh code live n) = live := by
      rw [hlast,List.getD_eq_getElem?_getD,List.getElem?_eq_getElem hlen]
      exact List.set_getElem_self hlen
    rw [Liveness.update,hsame] at h
    intro pc hpc
    rcases Nat.lt_succ_iff_lt_or_eq.mp hpc with hlt | rfl
    · exact ih (by omega) h pc hlt
    · exact hlast

theorem Underway.eq_liveness (h : Underway code live)
    (hfix : Liveness.update code code.length live = live) : live = code.liveness := by
  have hrefresh := refresh_of_update (Nat.le_of_eq h.length.symm) hfix
  have hreads : ∀ pc x, code.Reads x pc → x ∈ live.getD pc [] := by
    intro pc x hreads
    have hlt := hreads.lt
    induction hreads with
    | use hu => exact hrefresh _ hlt ▸ mem_refresh.mpr (.inl hu)
    | @step pc n hd hn hrest ih =>
      exact hrefresh _ hlt ▸ mem_refresh.mpr (.inr ⟨hd,n,hn,ih hrest.lt⟩)
  refine List.ext_getElem (h.length.trans code.length_liveness.symm) fun pc hpc hpc' => ?_
  refine (h.ascending _ (List.getElem_mem hpc)).ext
    (code.proper_liveness.ascending _ (List.getElem_mem hpc')) fun x => ?_
  have hright : code.liveAt pc = code.liveness[pc] := List.getD_eq_getElem _ _ hpc'
  rw [← List.getD_eq_getElem live [] hpc,← hright,mem_liveAt_iff_reads]
  exact ⟨h.sound pc x,hreads pc x⟩

/-- Rounds in place end, because every round but the last adds a slot to a set. -/
theorem Underway.loop (h : Underway code live) : Loop code live code.liveness := by
  induction hk : code.length * code.length - size live using Nat.strongRecOn
    generalizing live with
  | _ k ih =>
    by_cases hfix : Liveness.update code code.length live = live
    · rw [← h.eq_liveness hfix]
      exact .done hfix
    · obtain ⟨hupdate,hbelow⟩ := h.update code.length
      have hlt := size_lt h.ascending hupdate.ascending hbelow (Ne.symm hfix)
      have hle := size_le hupdate.toProper
      exact .again hfix (ih _ (by omega) hupdate rfl)

theorem underway_empty (code : Code) : Underway code (code.map fun _ => []) where
  toProper := code.proper_empty
  sound := sound_empty code
  rising pc x hx := absurd hx (not_mem_empty code pc x)

end Liveness

/-- Rounds in place from empty sets end with the sets of live slots, one for each instruction. A slot
is in the set of an instruction exactly if a path of control leads from there to a use of the slot
with no definition of it before. -/
theorem Code.liveness_exact (code : Code) :
    Liveness.Loop code (code.map fun _ => []) code.liveness ∧
      code.liveness.length = code.length ∧
      ∀ pc x, x ∈ code.liveAt pc ↔ ∃ p n, p 0 = pc ∧ code.UsePath x p n :=
  ⟨(Liveness.underway_empty code).loop,code.length_liveness,
    fun _ _ => mem_liveAt_iff_reads.trans reads_iff_exists_path⟩

end StackCompiler
