import Mathlib.Data.List.Sort
import StackCompiler.Optimize.Sharing
import StackCompiler.Proofs.LiveSlots

/-! Live intervals cover all that a slot is needed for. -/
namespace StackCompiler

namespace Interval

def Covers (x : Interval) (pc : Nat) : Prop := x.start ≤ pc ∧ pc ≤ x.stop

theorem mem_positions {s : Slot} {code : Code} {live : List SlotSet} {pc : Nat} :
    pc ∈ positions s code live ↔
      ∃ i set, code[pc]? = some i ∧ live[pc]? = some set ∧ occupied s i set = true := by
  simp only [positions,List.mem_map,List.mem_filter,List.mem_zipIdx_iff_getElem?,Prod.exists]
  constructor
  · rintro ⟨i,set,n,⟨hget,hocc⟩,rfl⟩
    rw [List.getElem?_zip_eq_some] at hget
    exact ⟨i,set,hget.1,hget.2,hocc⟩
  · rintro ⟨i,set,hi,hset,hocc⟩
    exact ⟨i,set,pc,⟨List.getElem?_zip_eq_some.mpr ⟨hi,hset⟩,hocc⟩,rfl⟩

theorem pairwise_positions (s : Slot) (code : Code) (live : List SlotSet) :
    (positions s code live).Pairwise (· < ·) := by
  have hindex : ((code.zip live).zipIdx.map Prod.snd).Pairwise (· < ·) := by
    rw [List.zipIdx_map_snd]
    exact List.pairwise_lt_range'
  exact hindex.sublist (List.filter_sublist.map Prod.snd)

theorem head_le {xs : List Nat} (h : xs.Pairwise (· < ·)) {a : Nat} (ha : xs.head? = some a) :
    ∀ x ∈ xs, a ≤ x := by
  cases xs with
  | nil => cases ha
  | cons y ys =>
    obtain rfl := Option.some.inj ha
    intro x hx
    rcases List.mem_cons.mp hx with rfl | hx
    · exact Nat.le_refl _
    · exact Nat.le_of_lt ((List.pairwise_cons.mp h).1 x hx)

theorem le_getLast {xs : List Nat} (h : xs.Pairwise (· < ·)) {b : Nat}
    (hb : xs.getLast? = some b) : ∀ x ∈ xs, x ≤ b := by
  obtain ⟨ys,rfl⟩ := List.getLast?_eq_some_iff.mp hb
  intro x hx
  rcases List.mem_append.mp hx with hx | hx
  · exact Nat.le_of_lt ((List.pairwise_append.mp h).2.2 x hx b List.mem_cons_self)
  · exact Nat.le_of_eq (List.mem_singleton.mp hx)

/-- An interval reaches from the first to the last position at which its slot is occupied. -/
theorem of?_eq_some {code : Code} {live : List SlotSet} {s : Slot} {info : SlotInfo} {x : Interval}
    (h : of? code live s info = some x) :
    x.slot = s ∧ x.info = info ∧ x.start ≤ x.stop ∧ ∀ pc ∈ positions s code live, x.Covers pc := by
  simp only [of?] at h
  split at h
  · next start stop hstart hstop =>
    cases h
    have hsorted := pairwise_positions s code live
    have hfirst := head_le hsorted hstart
    have hlast := le_getLast hsorted hstop
    refine ⟨rfl,rfl,hfirst stop ?_,fun pc hpc => ⟨hfirst pc hpc,hlast pc hpc⟩⟩
    exact List.mem_of_getLast? hstop
  · cases h

theorem ends_mem_positions {code : Code} {live : List SlotSet} {s : Slot} {info : SlotInfo}
    {x : Interval} (h : of? code live s info = some x) :
    x.start ∈ positions s code live ∧ x.stop ∈ positions s code live := by
  simp only [of?] at h
  split at h
  · next start stop hstart hstop =>
    cases h
    exact ⟨List.mem_of_head? hstart,List.mem_of_getLast? hstop⟩
  · cases h

theorem exists_of? {code : Code} {live : List SlotSet} {s : Slot} {pc : Nat}
    (h : pc ∈ positions s code live) (info : SlotInfo) : ∃ x, of? code live s info = some x := by
  have hne : positions s code live ≠ [] := List.ne_nil_of_mem h
  simp only [of?,List.head?_eq_some_head hne,List.getLast?_eq_some_getLast hne]
  exact ⟨_,rfl⟩

theorem insert_eq (x : Interval) (xs : List Interval) :
    insert x xs = xs.orderedInsert (fun a b => a.start ≤ b.start) x := by
  induction xs with
  | nil => rfl
  | cons y ys ih => rw [insert,List.orderedInsert_cons,ih]

/-- The order of intervals: by their starts, and by their slots where they start together. -/
def Before (a b : Interval) : Prop := a.start < b.start ∨ a.start = b.start ∧ a.slot < b.slot

theorem Before.le {a b : Interval} (h : a.Before b) : a.start ≤ b.start :=
  h.elim Nat.le_of_lt fun h => Nat.le_of_eq h.1

theorem ordered_insert {x : Interval} {xs : List Interval} (h : xs.Pairwise Before)
    (hx : ∀ y ∈ xs, x.slot < y.slot) : (insert x xs).Pairwise Before := by
  induction xs with
  | nil => exact List.pairwise_singleton _ _
  | cons y ys ih =>
    have hy := List.pairwise_cons.mp h
    rw [insert]
    split
    · next hle =>
      have hstart : ∀ z ∈ y :: ys, x.start ≤ z.start := by
        intro z hz
        rcases List.mem_cons.mp hz with rfl | hz
        · exact hle
        · exact Nat.le_trans hle (hy.1 z hz).le
      refine List.pairwise_cons.mpr ⟨fun z hz => ?_,h⟩
      exact (Nat.lt_or_eq_of_le (hstart z hz)).imp_right fun heq => ⟨heq,hx z hz⟩
    · next hlt =>
      refine List.pairwise_cons.mpr
        ⟨fun z hz => ?_,ih hy.2 fun z hz => hx z (List.mem_cons_of_mem y hz)⟩
      rw [insert_eq,List.mem_orderedInsert] at hz
      rcases hz with rfl | hz
      · exact .inl (Nat.lt_of_not_le hlt)
      · exact hy.1 z hz

theorem foldr_insert_perm (xs : List Interval) : (xs.foldr insert []).Perm xs := by
  rw [funext₂ insert_eq]
  exact List.perm_insertionSort _ xs

theorem ordered_foldr_insert {xs : List Interval} (h : xs.Pairwise fun a b => a.slot < b.slot) :
    (xs.foldr insert []).Pairwise Before := by
  induction xs with
  | nil => exact List.Pairwise.nil
  | cons x xs ih =>
    obtain ⟨hx,hxs⟩ := List.pairwise_cons.mp h
    exact ordered_insert (ih hxs) fun y hy => hx y ((foldr_insert_perm xs).mem_iff.mp hy)

end Interval

namespace RoutineCode

variable {r : RoutineCode}

theorem mem_intervals {x : Interval} : x ∈ r.intervals ↔
    ∃ n info, r.frame[n]? = some info ∧ Interval.of? r.code r.code.liveness n info = some x := by
  rw [intervals]
  simp only [(Interval.foldr_insert_perm _).mem_iff,List.mem_filterMap,Prod.exists,
    List.mem_zipIdx_iff_getElem?]
  constructor
  · rintro ⟨info,n,hn,hx⟩
    exact ⟨n,info,hn,hx⟩
  · rintro ⟨n,info,hn,hx⟩
    exact ⟨info,n,hn,hx⟩

theorem pairwise_slots (r : RoutineCode) : ((r.frame.zipIdx.filterMap fun p =>
    Interval.of? r.code r.code.liveness p.2 p.1).map (·.slot)).Pairwise (· < ·) := by
  have hslots : ((r.frame.zipIdx.filterMap fun p =>
      Interval.of? r.code r.code.liveness p.2 p.1).map (·.slot)).Sublist
      (r.frame.zipIdx.map Prod.snd) := by
    induction r.frame.zipIdx with
    | nil => exact .slnil
    | cons p rest ih =>
      rw [List.filterMap_cons]
      split
      · exact ih.cons _
      · next x hx =>
        rw [List.map_cons,List.map_cons,(Interval.of?_eq_some hx).1]
        exact ih.cons_cons _
  rw [List.zipIdx_map_snd] at hslots
  exact List.Pairwise.sublist hslots List.pairwise_lt_range'

theorem ordered_intervals (r : RoutineCode) : r.intervals.Pairwise Interval.Before :=
  Interval.ordered_foldr_insert (List.pairwise_map.mp r.pairwise_slots)

theorem pairwise_intervals (r : RoutineCode) :
    r.intervals.Pairwise fun a b => a.start ≤ b.start :=
  r.ordered_intervals.imp Interval.Before.le

theorem nodup_intervals (r : RoutineCode) : (r.intervals.map (·.slot)).Nodup := by
  have hperm := (Interval.foldr_insert_perm
    (r.frame.zipIdx.filterMap fun p => Interval.of? r.code r.code.liveness p.2 p.1)).map (·.slot)
  exact hperm.nodup_iff.mpr (r.pairwise_slots.imp Nat.ne_of_lt)

/-- A slot is in use at a position: the instruction mentions it, or it is live there. -/
def Occupies (r : RoutineCode) (x : Slot) (pc : Nat) : Prop :=
  ∃ i, r.code[pc]? = some i ∧ (i.slot? = some x ∨ x ∈ r.code.liveAt pc)

theorem Occupies.mem_positions {x : Slot} {pc : Nat} (h : r.Occupies x pc) :
    pc ∈ Interval.positions x r.code r.code.liveness := by
  obtain ⟨i,hi,hx⟩ := h
  have hlt : pc < r.code.liveness.length := by
    rw [Code.length_liveness]
    exact (List.getElem?_eq_some_iff.mp hi).1
  have hlive : r.code.liveness[pc]? = some (r.code.liveAt pc) := by
    rw [Code.liveAt,List.getD_eq_getElem?_getD,List.getElem?_eq_getElem hlt]
    rfl
  refine Interval.mem_positions.mpr ⟨i,_,hi,hlive,?_⟩
  rcases hx with hx | hx
  · simp [Interval.occupied,hx]
  · simp [Interval.occupied,hx]

theorem occupies_of_mem_positions {x : Slot} {pc : Nat}
    (h : pc ∈ Interval.positions x r.code r.code.liveness) : r.Occupies x pc := by
  obtain ⟨i,set,hi,hset,hocc⟩ := Interval.mem_positions.mp h
  have hlive : r.code.liveAt pc = set := by
    rw [Code.liveAt,List.getD_eq_getElem?_getD,hset]
    rfl
  refine ⟨i,hi,?_⟩
  rw [hlive]
  simpa [Interval.occupied,or_comm] using hocc

theorem occupies_ends {x : Interval} (hx : x ∈ r.intervals) :
    r.Occupies x.slot x.start ∧ r.Occupies x.slot x.stop := by
  obtain ⟨n,info,_,hof⟩ := mem_intervals.mp hx
  obtain ⟨hstart,hstop⟩ := Interval.ends_mem_positions hof
  rw [(Interval.of?_eq_some hof).1]
  exact ⟨occupies_of_mem_positions hstart,occupies_of_mem_positions hstop⟩

/-- The interval of a slot covers every position where the slot is in use. -/
theorem covers_of_occupies {x : Interval} (hx : x ∈ r.intervals) {pc : Nat}
    (h : r.Occupies x.slot pc) : x.Covers pc := by
  obtain ⟨n,info,_,hof⟩ := mem_intervals.mp hx
  obtain ⟨hslot,_,_,hcovers⟩ := Interval.of?_eq_some hof
  exact hcovers pc (hslot ▸ h.mem_positions)

theorem exists_interval {x : Slot} {pc : Nat} (h : r.Occupies x pc) (hlt : x < r.frame.length) :
    ∃ y ∈ r.intervals, y.slot = x := by
  obtain ⟨y,hy⟩ := Interval.exists_of? h.mem_positions r.frame[x]
  exact ⟨y,mem_intervals.mpr ⟨x,_,List.getElem?_eq_getElem hlt,hy⟩,(Interval.of?_eq_some hy).1⟩

theorem start_le_stop {x : Interval} (hx : x ∈ r.intervals) : x.start ≤ x.stop := by
  obtain ⟨_,_,_,hof⟩ := mem_intervals.mp hx
  exact (Interval.of?_eq_some hof).2.2.1

theorem getElem?_of_interval {x : Interval} (hx : x ∈ r.intervals) :
    r.frame[x.slot]? = some x.info := by
  obtain ⟨n,info,hn,hof⟩ := mem_intervals.mp hx
  obtain ⟨hslot,hinfo,_⟩ := Interval.of?_eq_some hof
  rw [hslot,hinfo,hn]

theorem slot_lt_of_interval {x : Interval} (hx : x ∈ r.intervals) : x.slot < r.frame.length :=
  (List.getElem?_eq_some_iff.mp (getElem?_of_interval hx)).1

theorem start_lt {x : Interval} (hx : x ∈ r.intervals) : x.start < r.code.length := by
  obtain ⟨⟨i,hi,_⟩,_⟩ := occupies_ends hx
  exact (List.getElem?_eq_some_iff.mp hi).1

end RoutineCode
end StackCompiler
