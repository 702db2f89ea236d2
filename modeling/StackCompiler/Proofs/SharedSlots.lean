import StackCompiler.Proofs.LoweredRoutines
import StackCompiler.Proofs.Intervals
import StackCompiler.Proofs.ModuleRuns
import StackCompiler.Proofs.Renaming

/-! Variables that share a slot are never in use together.
The invariant of the allocation says of every slot in use how far the intervals in it reach, and of
every free slot that they have all ended. So a routine with shared slots does what it did. -/
namespace StackCompiler

namespace RoutineCode

/-- The intervals of slots that are not parameters, in the order in which they are placed. -/
def movable (r : RoutineCode) : List Interval := r.intervals.filter (r.params ≤ ·.slot)

theorem mem_movable {r : RoutineCode} {x : Interval} :
    x ∈ r.movable ↔ x ∈ r.intervals ∧ r.params ≤ x.slot := by
  simp [movable,List.mem_filter]

theorem movable_sublist (r : RoutineCode) : r.movable.Sublist r.intervals := List.filter_sublist

end RoutineCode

namespace Sharing

def Holds (f : Frame) (n : Slot) (t : Ty) : Prop := f[n]?.map (·.type) = some t

theorem Holds.lt {f : Frame} {n : Slot} {t : Ty} (h : Holds f n t) : n < f.length := by
  obtain ⟨info,hinfo,_⟩ := Option.map_eq_some_iff.mp h
  exact (List.getElem?_eq_some_iff.mp hinfo).1

theorem holds_takeOver {f : Frame} {n m : Slot} {t : Ty} (info : SlotInfo) :
    Holds (f.modify m (takeOver info)) n t ↔ Holds f n t := by
  have htype : ∀ x : SlotInfo, (takeOver info x).type = x.type := fun _ => rfl
  unfold Holds
  rw [List.getElem?_modify]
  cases f[n]? with
  | none => simp
  | some x => by_cases h : m = n <;> simp [h,htype]

theorem Holds.append {f : Frame} {n : Slot} {t : Ty} (h : Holds f n t) (info : SlotInfo) :
    Holds (f ++ [info]) n t := by
  unfold Holds
  rw [List.getElem?_append_left h.lt]
  exact h

theorem holds_last (f : Frame) (info : SlotInfo) : Holds (f ++ [info]) f.length info.type := by
  simp [Holds]

theorem indexed_takeOver {f : Frame} (h : f.Indexed) (m : Slot) (info : SlotInfo) :
    Frame.Indexed (f.modify m (takeOver info)) := by
  intro n x hx
  rw [List.getElem?_modify] at hx
  obtain ⟨y,hy,rfl⟩ := Option.map_eq_some_iff.mp hx
  by_cases hm : m = n
  · rw [if_pos hm]
    exact h n y hy
  · rw [if_neg hm]
    exact h n y hy

theorem take_modify {f : Frame} {n m : Nat} (h : n ≤ m) (g : SlotInfo → SlotInfo) :
    (f.modify m g).take n = f.take n := by
  apply List.ext_getElem?
  intro k
  rw [List.getElem?_take,List.getElem?_take]
  split
  · next hk =>
    have hne : m ≠ k := Nat.ne_of_gt (Nat.lt_of_lt_of_le hk h)
    rw [List.getElem?_modify]
    simp [hne]
  · rfl

theorem indexed_append {f : Frame} (h : f.Indexed) (info : SlotInfo) :
    Frame.Indexed (f ++ [{ info with index := f.length }]) := by
  intro n x hx
  rw [List.getElem?_append] at hx
  split at hx
  · exact h n x hx
  · next hge =>
    obtain ⟨hn,rfl⟩ := List.getElem?_eq_some_iff.mp hx
    simp only [List.length_singleton] at hn
    have : n = f.length := by omega
    simp [this]

theorem mem_of_freeSlot? {s : State} {t : Ty} {n : Slot} (h : s.freeSlot? t = some n) :
    (n,t) ∈ s.free := by
  obtain ⟨p,hp,rfl⟩ := List.mem_map.mp (List.min?_mem h)
  obtain ⟨hmem,htype⟩ := List.mem_filter.mp hp
  rw [← beq_iff_eq.mp htype]
  exact hmem

/-- The intervals that are placed are apart wherever they share a slot, and those that start at the
position or later may have every slot that is free. -/
structure Placed (r : RoutineCode) (done : List Interval) (position : Nat) (s : State) : Prop where
  indexed : s.frame.Indexed
  length : r.params ≤ s.frame.length
  params : s.frame.take r.params = r.frame.take r.params
  own : ∀ n < r.params, s.rename n = n
  placed : ∀ x ∈ done, r.params ≤ s.rename x.slot ∧ Holds s.frame (s.rename x.slot) x.info.type
  apart : ∀ x ∈ done, ∀ y ∈ done, x.slot ≠ y.slot → s.rename x.slot = s.rename y.slot →
    x.stop < y.start ∨ y.stop < x.start
  active : ∀ a ∈ s.active, r.params ≤ a.slot ∧ Holds s.frame a.slot a.type ∧
    ∀ x ∈ done, s.rename x.slot = a.slot → x.stop ≤ a.stop
  free : ∀ p ∈ s.free, r.params ≤ p.1 ∧ Holds s.frame p.1 p.2 ∧
    ∀ x ∈ done, s.rename x.slot = p.1 → x.stop < position
  nodup : (s.free.map (·.1) ++ s.active.map (·.slot)).Nodup

section allocation

variable {r : RoutineCode} {done : List Interval} {position : Nat} {s : State}

theorem free_expire (s : State) (position : Nat) : (s.expire position).free =
    s.free ++ (s.active.filter (·.stop < position)).map fun a => (a.slot,a.type) := by
  simp [State.expire]

theorem active_expire (s : State) (position : Nat) :
    (s.expire position).active = s.active.filter fun a => !decide (a.stop < position) := by
  simp [State.expire,Function.comp_def]

/-- Slots whose intervals have ended by a later position become free. -/
theorem Placed.expire (h : Placed r done position s) {later : Nat} (hle : position ≤ later) :
    Placed r done later (s.expire later) := by
  have hfree := free_expire s later
  have hactive := active_expire s later
  refine ⟨h.indexed,h.length,h.params,h.own,h.placed,h.apart,?_,?_,?_⟩
  · rw [hactive]
    exact fun a ha => h.active a (List.mem_of_mem_filter ha)
  · rw [hfree]
    intro p hp
    rcases List.mem_append.mp hp with hp | hp
    · obtain ⟨hparams,hholds,hstop⟩ := h.free p hp
      exact ⟨hparams,hholds,fun x hx hslot => Nat.lt_of_lt_of_le (hstop x hx hslot) hle⟩
    · obtain ⟨a,ha,rfl⟩ := List.mem_map.mp hp
      obtain ⟨hmem,hend⟩ := List.mem_filter.mp ha
      obtain ⟨hparams,hholds,hstop⟩ := h.active a hmem
      refine ⟨hparams,hholds,fun x hx hslot => ?_⟩
      exact Nat.lt_of_le_of_lt (hstop x hx hslot) (of_decide_eq_true hend)
  · have hsplit := (List.filter_append_perm (fun a : Active => decide (a.stop < later)) s.active).map
      (·.slot)
    rw [List.map_append] at hsplit
    rw [hfree,hactive,List.map_append,List.map_map,List.append_assoc]
    refine ((List.Perm.append_left _ ?_).nodup_iff).mpr h.nodup
    refine .trans (.of_eq ?_) hsplit
    simp [Function.comp_def]

theorem rename_cons (s : State) (old new : Slot) (frame : Frame) (free : List (Slot × Ty))
    (active : List Active) (shared : List (Slot × Slot)) (n : Slot) :
    State.rename ⟨frame,(old,new) :: s.mapping,free,active,shared⟩ n =
      if n = old then new else s.rename n := by
  unfold State.rename
  rw [List.lookup_cons]
  by_cases h : n = old
  · simp [h]
  · simp [h,beq_eq_false_iff_ne.mpr h]

/-- An interval is put into a slot in which every other one has ended. -/
theorem Placed.occupy (h : Placed r done position s) {x : Interval} {slot : Slot} {frame : Frame}
    {free : List (Slot × Ty)} (shared : List (Slot × Slot)) (hindexed : frame.Indexed)
    (hholds : ∀ n t, Holds s.frame n t → Holds frame n t) (hlength : r.params ≤ frame.length)
    (hfirst : frame.take r.params = s.frame.take r.params)
    (hslot : Holds frame slot x.info.type) (hparams : r.params ≤ slot)
    (hfree : free.Sublist s.free) (hout : slot ∉ free.map (·.1) ++ s.active.map (·.slot))
    (hx : r.params ≤ x.slot) (hle : x.start ≤ x.stop) (hnew : ∀ y ∈ done, y.slot ≠ x.slot)
    (hended : ∀ y ∈ done, s.rename y.slot = slot → y.stop < x.start) :
    Placed r (x :: done) position
      ⟨frame,(x.slot,slot) :: s.mapping,free,s.active ++ [⟨x.stop,slot,x.info.type⟩],shared⟩ := by
  obtain ⟨hnotfree,hnotactive⟩ := not_or.mp (mt List.mem_append.mpr hout)
  have hrename := rename_cons s x.slot slot frame free (s.active ++ [⟨x.stop,slot,x.info.type⟩])
    shared
  have hself := (hrename x.slot).trans (if_pos rfl)
  have hsame : ∀ y ∈ done, _ := fun y hy => (hrename y.slot).trans (if_neg (hnew y hy))
  constructor
  case indexed => exact hindexed
  case length => exact hlength
  case params => exact hfirst.trans h.params
  case own =>
    intro n hn
    rw [hrename,if_neg (Nat.ne_of_lt (Nat.lt_of_lt_of_le hn hx))]
    exact h.own n hn
  case placed =>
    intro y hy
    rcases List.mem_cons.mp hy with rfl | hy
    · rw [hself]
      exact ⟨hparams,hslot⟩
    · rw [hsame y hy]
      exact ⟨(h.placed y hy).1,hholds _ _ (h.placed y hy).2⟩
  case apart =>
    intro y hy z hz hne heq
    rcases List.mem_cons.mp hy with rfl | hyd <;> rcases List.mem_cons.mp hz with rfl | hzd
    · exact absurd rfl hne
    · rw [hself,hsame z hzd] at heq
      exact .inr (hended z hzd heq.symm)
    · rw [hself,hsame y hyd] at heq
      exact .inl (hended y hyd heq)
    · rw [hsame y hyd,hsame z hzd] at heq
      exact h.apart y hyd z hzd hne heq
  case active =>
    intro a ha
    rcases List.mem_append.mp ha with hold | hlast
    · obtain ⟨haparams,haholds,hstop⟩ := h.active a hold
      refine ⟨haparams,hholds _ _ haholds,fun y hy heq => ?_⟩
      rcases List.mem_cons.mp hy with rfl | hy
      · rw [hself] at heq
        exact (hnotactive (List.mem_map.mpr ⟨a,hold,heq.symm⟩)).elim
      · exact hstop y hy ((hsame y hy).symm.trans heq)
    · obtain rfl := List.mem_singleton.mp hlast
      refine ⟨hparams,hslot,fun y hy heq => ?_⟩
      rcases List.mem_cons.mp hy with rfl | hy
      · exact Nat.le_refl _
      · exact Nat.le_trans (Nat.le_of_lt (hended y hy ((hsame y hy).symm.trans heq))) hle
  case free =>
    intro p hp
    obtain ⟨hpparams,hpholds,hstop⟩ := h.free p (hfree.subset hp)
    refine ⟨hpparams,hholds _ _ hpholds,fun y hy heq => ?_⟩
    rcases List.mem_cons.mp hy with rfl | hy
    · rw [hself] at heq
      exact (hnotfree (List.mem_map.mpr ⟨p,hp,heq.symm⟩)).elim
    · exact hstop y hy ((hsame y hy).symm.trans heq)
  case nodup =>
    rw [List.map_append,← List.append_assoc]
    have hold := h.nodup.sublist ((hfree.map (·.1)).append (List.Sublist.refl _))
    refine List.nodup_append.mpr ⟨hold,List.nodup_singleton _,?_⟩
    rintro a ha b hb rfl
    obtain rfl : a = slot := List.mem_singleton.mp hb
    exact hout ha

theorem Placed.place (h : Placed r done position s) {x : Interval} (hpos : position ≤ x.start)
    (hx : r.params ≤ x.slot) (hle : x.start ≤ x.stop) (hnew : ∀ y ∈ done, y.slot ≠ x.slot) :
    Placed r (x :: done) x.start (s.place x) := by
  have he := h.expire hpos
  simp only [State.place]
  split
  · next slot hslot =>
    have hmem := mem_of_freeSlot? hslot
    obtain ⟨hparams,hholds,hstop⟩ := he.free _ hmem
    refine he.occupy _ (indexed_takeOver he.indexed _ _) (fun _ _ => (holds_takeOver _).mpr) ?_
      (take_modify hparams _) ((holds_takeOver _).mpr hholds) hparams List.filter_sublist ?_ hx hle
      hnew hstop
    · rw [List.length_modify]
      exact he.length
    · -- the slot is free with one type only, so filtering takes away its only entry
      have hnodup := List.nodup_append.mp he.nodup
      intro hin
      rcases List.mem_append.mp hin with hin | hin
      · obtain ⟨p,hp,heq⟩ := List.mem_map.mp hin
        obtain ⟨hpmem,hpne⟩ := List.mem_filter.mp hp
        have hpholds := (he.free p hpmem).2.1
        rw [heq] at hpholds
        have htype : p.2 = x.info.type := Option.some.inj (hpholds.symm.trans hholds)
        simp [← heq,← htype] at hpne
      · exact hnodup.2.2 slot (List.mem_map.mpr ⟨_,hmem,rfl⟩) slot hin rfl
  · next hnone =>
    refine he.occupy _ (indexed_append he.indexed _) (fun _ _ hn => hn.append _) ?_
      (List.take_append_of_le_length he.length) (holds_last _ _) he.length (List.Sublist.refl _) ?_ hx hle hnew ?_
    · rw [List.length_append]
      exact Nat.le_trans he.length (Nat.le_add_right _ _)
    · intro hmem
      rcases List.mem_append.mp hmem with hmem | hmem
      · obtain ⟨p,hp,heq⟩ := List.mem_map.mp hmem
        exact Nat.lt_irrefl _ (heq ▸ (he.free p hp).2.1.lt)
      · obtain ⟨a,ha,heq⟩ := List.mem_map.mp hmem
        exact Nat.lt_irrefl _ (heq ▸ (he.active a ha).2.1.lt)
    · intro y hy heq
      exact absurd (heq ▸ (he.placed y hy).2.lt) (Nat.lt_irrefl _)

/-- An interval that can be placed after others: it starts no earlier, and none of them belongs to its
slot, which is no parameter. -/
structure Next (r : RoutineCode) (done : List Interval) (position : Nat) (x : Interval) : Prop where
  start : position ≤ x.start
  params : r.params ≤ x.slot
  le : x.start ≤ x.stop
  new : ∀ y ∈ done, y.slot ≠ x.slot

/-- What placing one interval keeps, placing one after another keeps. -/
theorem foldl_place {P : List Interval → Nat → State → Prop} {xs : List Interval}
    (hplace : ∀ done position s x, P done position s → Next r done position x →
      P (x :: done) x.start (s.place x))
    (h : P done position s) (hsorted : xs.Pairwise fun a b => a.start ≤ b.start)
    (hpos : ∀ x ∈ xs, position ≤ x.start) (hx : ∀ x ∈ xs, r.params ≤ x.slot)
    (hle : ∀ x ∈ xs, x.start ≤ x.stop) (hnodup : (xs.map (·.slot)).Nodup)
    (hnew : ∀ x ∈ xs, ∀ y ∈ done, y.slot ≠ x.slot) :
    ∃ later, P (xs.reverse ++ done) later (xs.foldl State.place s) := by
  induction xs generalizing done position s with
  | nil => exact ⟨position,h⟩
  | cons x xs ih =>
    obtain ⟨hfirst,hsorted⟩ := List.pairwise_cons.mp hsorted
    obtain ⟨hout,hnodup⟩ := List.nodup_cons.mp hnodup
    have hmem := List.mem_cons_self (a := x) (l := xs)
    have htail : ∀ y ∈ xs, y ∈ x :: xs := fun y hy => List.mem_cons_of_mem x hy
    have hplaced := hplace done position s x h ⟨hpos x hmem,hx x hmem,hle x hmem,hnew x hmem⟩
    obtain ⟨later,hlater⟩ := ih hplaced hsorted hfirst (fun y hy => hx y (htail y hy))
      (fun y hy => hle y (htail y hy)) hnodup (fun y hy z hz => by
        rcases List.mem_cons.mp hz with rfl | hz
        · exact fun he => hout (List.mem_map.mpr ⟨y,hy,he.symm⟩)
        · exact hnew y (htail y hy) z hz)
    refine ⟨later,?_⟩
    rw [List.reverse_cons,List.append_assoc]
    exact hlater

/-- What holds of the parameters alone and is kept by placing an interval holds in the end, when every
interval that does not belong to a parameter is placed. -/
theorem allocate_induction {P : List Interval → Nat → State → Prop} (hstart : P [] 0 (start r))
    (hplace : ∀ done position s x, P done position s → Next r done position x →
      P (x :: done) x.start (s.place x)) :
    ∃ done later, P done later (allocate r) ∧
      ∀ x, x ∈ done ↔ x ∈ r.intervals ∧ r.params ≤ x.slot := by
  have hmem : ∀ x ∈ r.movable, x ∈ r.intervals ∧ r.params ≤ x.slot := fun x hx =>
    RoutineCode.mem_movable.mp hx
  obtain ⟨later,hlater⟩ := foldl_place hplace hstart
    (r.pairwise_intervals.sublist r.movable_sublist) (fun _ _ => Nat.zero_le _)
    (fun x hx => (hmem x hx).2) (fun x hx => RoutineCode.start_le_stop (hmem x hx).1)
    (r.nodup_intervals.sublist (r.movable_sublist.map _)) (fun _ _ _ hy => by cases hy)
  refine ⟨_,later,hlater,fun x => ?_⟩
  rw [List.append_nil,List.mem_reverse]
  exact RoutineCode.mem_movable

theorem mem_of_lookup_mapping {mapping : List (Slot × Slot)} {old new : Slot}
    (h : mapping.lookup old = some new) : (old,new) ∈ mapping := by
  obtain ⟨before,after,rfl,_⟩ := List.lookup_eq_some_iff.mp h
  exact List.mem_append_right _ List.mem_cons_self

/-- Where every slot is listed under its own number all keep their numbers. -/
theorem rename_of_same (h : ∀ p ∈ s.mapping, p.1 = p.2) (n : Slot) : s.rename n = n := by
  unfold State.rename
  cases hl : s.mapping.lookup n with
  | none => rfl
  | some m => exact (h _ (mem_of_lookup_mapping hl)).symm

theorem mapping_start (h : r.frame.Indexed) : ∀ p ∈ (start r).mapping, p.1 = p.2 := by
  intro p hp
  obtain ⟨⟨info,k⟩,hk,rfl⟩ := List.mem_map.mp (List.mem_reverse.mp hp)
  have hget := List.mem_zipIdx_iff_getElem?.mp hk
  rw [List.getElem?_take] at hget
  split at hget
  · exact h k info hget
  · cases hget

theorem placed_start (h : r.frame.Indexed) (hparams : r.params ≤ r.frame.length) :
    Placed r [] 0 (start r) where
  indexed n info hn := by
    change (r.frame.take r.params)[n]? = some info at hn
    rw [List.getElem?_take] at hn
    split at hn
    · exact h n info hn
    · cases hn
  length := by simp [start,hparams]
  params := by simp [start,List.take_take]
  own n _ := rename_of_same (mapping_start h) n
  placed x hx := by cases hx
  apart x hx := by cases hx
  active a ha := by cases ha
  free p hp := by cases hp
  nodup := List.nodup_nil

/-- Every interval that does not belong to a parameter is placed in the end. -/
theorem placed_allocate (h : r.frame.Indexed) (hparams : r.params ≤ r.frame.length) :
    ∃ done later, Placed r done later (allocate r) ∧
      ∀ x, x ∈ done ↔ x ∈ r.intervals ∧ r.params ≤ x.slot :=
  allocate_induction (placed_start h hparams) fun _ _ _ _ hplaced hx =>
    hplaced.place hx.start hx.params hx.le hx.new

theorem mem_mapping_foldl {xs : List Interval} {p : Slot × Slot}
    (h : p ∈ (xs.foldl State.place s).mapping) : (∃ x ∈ xs, x.slot = p.1) ∨ p ∈ s.mapping := by
  induction xs generalizing s with
  | nil => exact .inr h
  | cons x xs ih =>
    rcases ih h with ⟨y,hy,hslot⟩ | hmem
    · exact .inl ⟨y,List.mem_cons_of_mem x hy,hslot⟩
    · have hplace : ∃ slot, (s.place x).mapping = (x.slot,slot) :: s.mapping := by
        simp only [State.place]
        split <;> exact ⟨_,rfl⟩
      obtain ⟨slot,hslot⟩ := hplace
      rw [hslot] at hmem
      rcases List.mem_cons.mp hmem with rfl | hmem
      · exact .inl ⟨x,List.mem_cons_self,rfl⟩
      · exact .inr hmem

/-- The slots with new numbers are the parameters and those that have intervals. -/
theorem mem_mapping_allocate (h : r.frame.Indexed) {p : Slot × Slot}
    (hp : p ∈ (allocate r).mapping) : p.1 < r.params ∨ ∃ x ∈ r.intervals, x.slot = p.1 := by
  rcases mem_mapping_foldl hp with ⟨x,hx,hslot⟩ | hstart
  · exact .inr ⟨x,(List.mem_filter.mp hx).1,hslot⟩
  · obtain ⟨⟨info,k⟩,hk,rfl⟩ := List.mem_map.mp (List.mem_reverse.mp hstart)
    have hget := List.mem_zipIdx_iff_getElem?.mp hk
    rw [List.getElem?_take] at hget
    split at hget
    · next hlt => exact .inl (h k info hget ▸ hlt)
    · cases hget

end allocation

end Sharing

theorem Code.Within.slot_lt {code : Code} {n : Nat} (h : code.Within n) {i : Instr} (hi : i ∈ code)
    {x : Slot} (hx : i.slot? = some x) : x < n := by
  obtain ⟨p,hp,hslot⟩ := Option.bind_eq_some_iff.mp hx
  exact h i hi p hp x hslot

theorem Code.lt_length_of_mem_liveAt {code : Code} {pc : Nat} {x : Slot} (h : x ∈ code.liveAt pc) :
    pc < code.length :=
  code.length_liveness ▸ Liveness.lt_length_of_mem_getD h

theorem Code.labels_renumber (f : Slot → Slot) (code : Code) :
    Code.labels (code.map (Instr.renumber f)) = code.labels := by
  induction code with
  | nil => rfl
  | cons i rest ih =>
    have hi : (i.renumber f).label? = i.label? := by cases i <;> rfl
    rw [List.map_cons,Code.labels_cons,Code.labels_cons,hi,ih]

namespace RoutineCode

/-- The frame is numbered from zero, begins with the parameters and has all the slots referred to. -/
structure Framed (r : RoutineCode) : Prop where
  indexed : r.frame.Indexed
  within : r.code.Within r.frame.length
  params : r.params ≤ r.frame.length

variable {r : RoutineCode} {x y : Slot} {pc : Nat}

theorem Lowered.framed (h : r.Lowered) : r.Framed := ⟨h.indexed,h.within,h.params⟩

theorem Framed.slot_lt (h : r.Framed) (hx : r.Occupies x pc) : x < r.frame.length := by
  obtain ⟨i,hi,hx | hx⟩ := hx
  · exact h.within.slot_lt (List.mem_of_getElem? hi) hx
  · obtain ⟨j,hj,hused⟩ := List.mem_filterMap.mp (r.code.liveAt_subset_used pc hx)
    refine h.within.slot_lt hj ?_
    cases j with
    | store | alloc => cases hused
    | _ => exact hused

theorem occupies_of_live (h : x ∈ r.code.liveAt pc) : r.Occupies x pc :=
  ⟨_,List.getElem?_eq_getElem (Code.lt_length_of_mem_liveAt h),.inr h⟩

def renamed (r : RoutineCode) : Slot → Slot := (Sharing.allocate r).rename

theorem Framed.renamed_param (h : r.Framed) (hx : x < r.params) : r.renamed x = x := by
  obtain ⟨_,_,hplaced,_⟩ := Sharing.placed_allocate h.indexed h.params
  exact hplaced.own x hx

theorem holds_of_interval {a : Interval} (ha : a ∈ r.intervals) :
    Sharing.Holds r.frame a.slot a.info.type := by
  rw [Sharing.Holds,getElem?_of_interval ha]
  rfl

/-- A variable moves to a slot of its type behind the parameters. -/
theorem Framed.holds_renamed (h : r.Framed) (hocc : r.Occupies x pc) (hx : r.params ≤ x) :
    r.params ≤ r.renamed x ∧ ∃ t, Sharing.Holds r.frame x t ∧
      Sharing.Holds r.shareSlots.routine.frame (r.renamed x) t := by
  obtain ⟨done,_,hplaced,hdone⟩ := Sharing.placed_allocate h.indexed h.params
  obtain ⟨y,hy,rfl⟩ := exists_interval hocc (h.slot_lt hocc)
  obtain ⟨hparams,hholds⟩ := hplaced.placed y ((hdone y).mpr ⟨hy,hx⟩)
  exact ⟨hparams,y.info.type,holds_of_interval hy,hholds⟩

/-- Slots share a number only if they are of one type and their intervals lie apart, and a parameter
shares its number with none. -/
theorem Framed.apart_of_shared (h : r.Framed) {n : Slot} (hne : x ≠ y)
    (hx : (Sharing.allocate r).mapping.lookup x = some n)
    (hy : (Sharing.allocate r).mapping.lookup y = some n) :
    r.params ≤ x ∧ r.params ≤ y ∧ ∃ a ∈ r.intervals, ∃ b ∈ r.intervals, a.slot = x ∧ b.slot = y ∧
      a.info.type = b.info.type ∧ (a.stop < b.start ∨ b.stop < a.start) := by
  obtain ⟨done,_,hplaced,hdone⟩ := Sharing.placed_allocate h.indexed h.params
  have hnumber : ∀ {z : Slot}, (Sharing.allocate r).mapping.lookup z = some n →
      (Sharing.allocate r).rename z = n := by
    intro z hz
    rw [Sharing.State.rename,hz]
    rfl
  have horigin : ∀ {z : Slot}, (Sharing.allocate r).mapping.lookup z = some n →
      z = n ∧ n < r.params ∨ r.params ≤ n ∧ ∃ a ∈ done, a.slot = z := by
    intro z hz
    have hmem := Sharing.mem_of_lookup_mapping hz
    rcases Nat.lt_or_ge z r.params with hlt | hge
    · have hown := (hplaced.own z hlt).symm.trans (hnumber hz)
      exact .inl ⟨hown,hown ▸ hlt⟩
    · rcases Sharing.mem_mapping_allocate h.indexed hmem with hlt | ⟨a,ha,rfl⟩
      · exact absurd hlt (Nat.not_lt.mpr hge)
      · have had := (hdone a).mpr ⟨ha,hge⟩
        exact .inr ⟨hnumber hz ▸ (hplaced.placed a had).1,a,had,rfl⟩
  rcases horigin hx with ⟨hxn,hlt⟩ | ⟨hge,a,ha,rfl⟩ <;> rcases horigin hy with ⟨hyn,hlt'⟩ | ⟨hge',b,hb,rfl⟩
  · exact absurd (hxn.trans hyn.symm) hne
  · exact absurd hlt (Nat.not_lt.mpr hge')
  · exact absurd hlt' (Nat.not_lt.mpr hge)
  · obtain ⟨hai,hap⟩ := (hdone a).mp ha
    obtain ⟨hbi,hbp⟩ := (hdone b).mp hb
    have haholds := (hplaced.placed a ha).2
    have hbholds := (hplaced.placed b hb).2
    rw [hnumber hx] at haholds
    rw [hnumber hy] at hbholds
    exact ⟨hap,hbp,a,hai,b,hbi,rfl,rfl,Option.some.inj (haholds.symm.trans hbholds),
      hplaced.apart a ha b hb hne ((hnumber hx).trans (hnumber hy).symm)⟩

theorem Framed.renamed_ne (h : r.Framed) (hx : r.Occupies x pc) (hy : r.Occupies y pc)
    (hne : x ≠ y) : r.renamed x ≠ r.renamed y := by
  rcases Nat.lt_or_ge x r.params with hxp | hxp <;> rcases Nat.lt_or_ge y r.params with hyp | hyp
  · rw [h.renamed_param hxp,h.renamed_param hyp]
    exact hne
  · rw [h.renamed_param hxp]
    exact Nat.ne_of_lt (Nat.lt_of_lt_of_le hxp (h.holds_renamed hy hyp).1)
  · rw [h.renamed_param hyp]
    exact Nat.ne_of_gt (Nat.lt_of_lt_of_le hyp (h.holds_renamed hx hxp).1)
  · obtain ⟨done,_,hplaced,hdone⟩ := Sharing.placed_allocate h.indexed h.params
    obtain ⟨a,ha,rfl⟩ := exists_interval hx (h.slot_lt hx)
    obtain ⟨b,hb,rfl⟩ := exists_interval hy (h.slot_lt hy)
    have hcovera := covers_of_occupies ha hx
    have hcoverb := covers_of_occupies hb hy
    intro heq
    rcases hplaced.apart a ((hdone a).mpr ⟨ha,hxp⟩) b ((hdone b).mpr ⟨hb,hyp⟩) hne heq with hlt | hlt
    · exact Nat.lt_irrefl _ (Nat.lt_of_le_of_lt (Nat.le_trans hcoverb.1 hcovera.2) hlt)
    · exact Nat.lt_irrefl _ (Nat.lt_of_le_of_lt (Nat.le_trans hcovera.1 hcoverb.2) hlt)

theorem Framed.apart_renamed (h : r.Framed) : Machine.Apart r.code r.renamed := by
  intro pc i x y hi hdef hy hne
  have hslot : i.slot? = some x := by
    cases i with
    | store | alloc => exact hdef
    | _ => cases hdef
  have hflow : i.endsFlow = false := by
    cases i with
    | store | alloc => rfl
    | _ => cases hdef
  have hlive := Code.mem_liveAt_of_next hi hflow hy fun he =>
    hne (Option.some.inj (he.symm.trans hdef))
  exact h.renamed_ne ⟨i,hi,.inr hlive⟩ ⟨i,hi,.inl hslot⟩ hne

theorem Framed.agree_enter (h : r.Framed) (args : List Machine.Value) :
    Machine.Agree r.code r.renamed (Machine.enter r args)
      (Machine.enter r.shareSlots.routine args) := by
  refine ⟨rfl,rfl,fun x hx => ?_⟩
  have hocc := occupies_of_live hx
  change (if x < r.params then _ else _) = if r.renamed x < r.params then _ else _
  by_cases hparam : x < r.params
  · rw [h.renamed_param hparam,if_pos hparam,if_pos hparam]
  · obtain ⟨hle,t,hold,hnew⟩ := h.holds_renamed hocc (Nat.le_of_not_lt hparam)
    rw [if_neg hparam,if_neg (Nat.not_lt.mpr hle)]
    have hcomp : ∀ info : Option SlotInfo, info.map (fun i => Machine.Value.zero i.type) =
        (info.map (·.type)).map Machine.Value.zero := by
      intro info
      cases info <;> rfl
    rw [hcomp,hcomp,show r.frame[x]?.map (·.type) = some t from hold,
      show r.shareSlots.routine.frame[r.renamed x]?.map (·.type) = some t from hnew]

theorem Framed.shareSlots (h : r.Framed) : r.shareSlots.routine.Framed := by
  obtain ⟨_,_,hplaced,_⟩ := Sharing.placed_allocate h.indexed h.params
  refine ⟨hplaced.indexed,?_,hplaced.length⟩
  intro j hj p hp n hn
  obtain ⟨i,hi,rfl⟩ := List.mem_map.mp hj
  have hslot : (i.renumber r.renamed).slot? = some n := by
    rw [Instr.slot?]
    exact Option.bind_eq_some_iff.mpr ⟨p,hp,hn⟩
  rw [Instr.slot?_renumber] at hslot
  obtain ⟨x,hx,rfl⟩ := Option.map_eq_some_iff.mp hslot
  obtain ⟨pc,hpc⟩ := List.getElem?_of_mem hi
  by_cases hparam : x < r.params
  · rw [h.renamed_param hparam]
    exact Nat.lt_of_lt_of_le hparam hplaced.length
  · obtain ⟨_,_,_,hnew⟩ := h.holds_renamed ⟨i,hpc,.inl hx⟩ (Nat.le_of_not_lt hparam)
    exact hnew.lt

theorem Lowered.shareSlots (h : r.Lowered) : r.shareSlots.routine.Lowered := by
  have hframed := h.framed.shareSlots
  refine ⟨h.disciplined.renumber _,hframed.indexed,hframed.within,hframed.params,?_⟩
  exact (Code.labels_renumber _ _).symm ▸ h.labels

theorem Lowered.interchangeable_shareSlots (h : r.Lowered) (o : Machine.Operations) :
    Machine.Interchangeable o r r.shareSlots.routine :=
  fun args s => Machine.bisimilar_renumber o h.framed.apart_renamed (h.framed.agree_enter args) s

end RoutineCode
end StackCompiler
