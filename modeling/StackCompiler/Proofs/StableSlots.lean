import StackCompiler.Proofs.LivePaths
import StackCompiler.Proofs.SlotOpenings

/-! Sharing slots a second time changes nothing.
A slot that variables share is in use exactly where one of them was, so its interval reaches from the
start of the one for which it was opened at least to the end of every other. New slots are therefore
numbered in the order of their intervals, and an interval still covers the start of every later one
of its type. Placing intervals like these opens a slot for each, under the number it has. -/
namespace StackCompiler

/-- The second interval starts no earlier and, if the types agree, before the first has ended. -/
def Interval.Crosses (a b : Interval) : Prop :=
  a.start ≤ b.start ∧ (a.info.type = b.info.type → b.start ≤ a.stop)

namespace Sharing

/-- The slots that are free or become free are of other types than the intervals still to come. -/
structure Blocked (s : State) (xs : List Interval) : Prop where
  free : ∀ p ∈ s.free, ∀ x ∈ xs, p.2 ≠ x.info.type
  active : ∀ a ∈ s.active, ∀ x ∈ xs, a.type = x.info.type → x.start ≤ a.stop

theorem blocked_start (r : RoutineCode) (xs : List Interval) : Blocked (start r) xs where
  free p hp := by cases hp
  active a ha := by cases ha

theorem Blocked.expire {s : State} {xs : List Interval} (h : Blocked s xs) {position : Nat}
    (hpos : ∀ x ∈ xs, position ≤ x.start) : Blocked (s.expire position) xs := by
  constructor
  · intro p hp x hx
    rw [free_expire] at hp
    rcases List.mem_append.mp hp with hp | hp
    · exact h.free p hp x hx
    · obtain ⟨a,ha,rfl⟩ := List.mem_map.mp hp
      obtain ⟨ha,hend⟩ := List.mem_filter.mp ha
      intro htype
      have hstart := h.active a ha x hx htype
      have hle := hpos x hx
      have hlt := of_decide_eq_true hend
      omega
  · intro a ha
    rw [active_expire] at ha
    exact h.active a (List.mem_of_mem_filter ha)

/-- Each of the intervals gets a new slot of its own, and its number does not change. -/
theorem foldl_place_of_crosses {xs : List Interval} {s : State}
    (hcross : xs.Pairwise Interval.Crosses) (hblocked : Blocked s xs)
    (hindex : ∀ x ∈ xs, x.info.index = x.slot)
    (hslots : xs.map (·.slot) = List.range' s.frame.length xs.length)
    (hsame : ∀ p ∈ s.mapping, p.1 = p.2) :
    (xs.foldl State.place s).frame = s.frame ++ xs.map (·.info) ∧
      (∀ p ∈ (xs.foldl State.place s).mapping, p.1 = p.2) ∧
      (xs.foldl State.place s).shared = s.shared := by
  induction xs generalizing s with
  | nil => exact ⟨(List.append_nil _).symm,hsame,rfl⟩
  | cons x xs ih =>
    obtain ⟨hx,hxs⟩ := List.pairwise_cons.mp hcross
    rw [List.map_cons,List.length_cons,List.range'_succ] at hslots
    obtain ⟨hslot,hrest⟩ := List.cons.inj hslots
    have hexpired : Blocked (s.expire x.start) (x :: xs) := hblocked.expire fun y hy => by
      rcases List.mem_cons.mp hy with rfl | hy
      · exact Nat.le_refl _
      · exact (hx y hy).1
    have hnone := freeSlot?_eq_none_iff.mpr fun p hp => hexpired.free p hp x List.mem_cons_self
    have hinfo : { x.info with index := s.frame.length } = x.info := by
      rw [← hslot,← hindex x List.mem_cons_self]
    have hplace : s.place x = ⟨s.frame ++ [x.info],(x.slot,s.frame.length) :: s.mapping,
        (s.expire x.start).free,
        (s.expire x.start).active ++ [⟨x.stop,s.frame.length,x.info.type⟩],s.shared⟩ := by
      simp only [State.place,hnone]
      exact congrArg (fun info => State.mk (s.frame ++ [info]) _ _ _ _) hinfo
    have hnext : Blocked (s.place x) xs := by
      rw [hplace]
      refine ⟨fun p hp y hy => hexpired.free p hp y (List.mem_cons_of_mem x hy),fun a ha y hy => ?_⟩
      rcases List.mem_append.mp ha with ha | ha
      · exact hexpired.active a ha y (List.mem_cons_of_mem x hy)
      · obtain rfl := List.mem_singleton.mp ha
        exact (hx y hy).2
    obtain ⟨hframe,hmapping,hshared⟩ := ih hxs hnext
      (fun y hy => hindex y (List.mem_cons_of_mem x hy))
      (by simpa [hplace] using hrest)
      (by
        rw [hplace]
        intro p hp
        rcases List.mem_cons.mp hp with rfl | hp
        · exact hslot
        · exact hsame p hp)
    rw [List.foldl_cons,hframe,hshared]
    refine ⟨?_,hmapping,?_⟩
    · rw [hplace,List.map_cons,List.append_assoc]
      rfl
    · rw [hplace]

end Sharing

namespace Instr

theorem used?_renumber (f : Slot → Slot) (i : Instr) : (i.renumber f).used? = i.used?.map f := by
  cases i <;> simp [renumber,used?,slot?,place?]

theorem defined?_renumber (f : Slot → Slot) (i : Instr) :
    (i.renumber f).defined? = i.defined?.map f := by
  cases i <;> simp [renumber,defined?]

theorem renumber_of_same {f : Slot → Slot} (h : ∀ n, f n = n) (i : Instr) : i.renumber f = i := by
  have hplace : ∀ p : Place, p.renumber f = p := by
    intro p
    cases p with
    | slot n => exact congrArg Place.slot (h n)
    | global => rfl
  cases i <;> simp [renumber,hplace]

end Instr

namespace Code

variable (f : Slot → Slot) (code : Code) (pc : Nat)

theorem usedAt_renumber :
    usedAt (code.map (Instr.renumber f)) pc = (code.usedAt pc).map f := by
  rw [usedAt,usedAt,List.getElem?_map]
  cases code[pc]? with
  | none => rfl
  | some i => exact i.used?_renumber f

theorem definedAt_renumber :
    definedAt (code.map (Instr.renumber f)) pc = (code.definedAt pc).map f := by
  rw [definedAt,definedAt,List.getElem?_map]
  cases code[pc]? with
  | none => rfl
  | some i => exact i.defined?_renumber f

theorem successors_renumber :
    successors (code.map (Instr.renumber f)) pc = code.successors pc := by
  simp only [successors,following,List.getElem?_map,List.length_map,Machine.target?_map_renumber]
  cases code[pc]? with
  | none => rfl
  | some i => cases i <;> rfl

end Code

namespace RoutineCode

open Code

variable {r : RoutineCode} {n : Slot} {pc : Nat}

/-- A shared slot is read later exactly if one of its variables is. -/
theorem Framed.reads_shared (h : r.Framed) : r.shareSlots.routine.code.Reads n pc ↔
    ∃ x, r.renamed x = n ∧ r.code.Reads x pc := by
  have hcode : r.shareSlots.routine.code = r.code.map (Instr.renumber r.renamed) := rfl
  rw [hcode]
  constructor
  · intro hreads
    induction hreads with
    | use hu =>
      rw [usedAt_renumber] at hu
      obtain ⟨x,hx,hn⟩ := Option.map_eq_some_iff.mp hu
      exact ⟨x,hn,.use hx⟩
    | step hd hm _ ih =>
      obtain ⟨x,hn,hx⟩ := ih
      rw [successors_renumber] at hm
      refine ⟨x,hn,.step (fun hdx => hd ?_) hm hx⟩
      rw [definedAt_renumber,hdx,Option.map_some,hn]
  · rintro ⟨x,rfl,hreads⟩
    induction hreads with
    | use hu => exact .use (by rw [usedAt_renumber,hu,Option.map_some])
    | @step pc m hd hm hx ih =>
      refine .step (fun hdn => ?_) (successors_renumber r.renamed r.code pc ▸ hm) ih
      rw [definedAt_renumber] at hdn
      obtain ⟨y,hy,heq⟩ := Option.map_eq_some_iff.mp hdn
      obtain ⟨i,hi,hdef⟩ := Option.bind_eq_some_iff.mp hy
      have hslot : i.slot? = some y := by
        cases i with
        | store | alloc => exact hdef
        | _ => cases hdef
      have hlive := mem_liveAt_iff_reads.mpr (Reads.step hd hm hx)
      have hne : y ≠ x := fun h => hd (h ▸ hy)
      exact h.renamed_ne ⟨i,hi,.inl hslot⟩ (occupies_of_live hlive) hne heq

theorem Framed.occupies_shared (h : r.Framed) : r.shareSlots.routine.Occupies n pc ↔
    ∃ x, r.renamed x = n ∧ r.Occupies x pc := by
  have hlive : n ∈ r.shareSlots.routine.code.liveAt pc ↔
      ∃ x, r.renamed x = n ∧ x ∈ r.code.liveAt pc := by
    simp only [mem_liveAt_iff_reads,h.reads_shared]
  have hget : r.shareSlots.routine.code[pc]? = r.code[pc]?.map (Instr.renumber r.renamed) :=
    List.getElem?_map
  constructor
  · rintro ⟨j,hj,hn⟩
    rw [hget] at hj
    obtain ⟨i,hi,rfl⟩ := Option.map_eq_some_iff.mp hj
    rcases hn with hn | hn
    · rw [Instr.slot?_renumber] at hn
      obtain ⟨x,hx,hn⟩ := Option.map_eq_some_iff.mp hn
      exact ⟨x,hn,i,hi,.inl hx⟩
    · obtain ⟨x,hn,hx⟩ := hlive.mp hn
      exact ⟨x,hn,i,hi,.inr hx⟩
  · rintro ⟨x,rfl,i,hi,hx⟩
    refine ⟨i.renumber r.renamed,by rw [hget,hi]; rfl,?_⟩
    rcases hx with hx | hx
    · exact .inl (by rw [Instr.slot?_renumber,hx]; rfl)
    · exact .inr (hlive.mpr ⟨x,rfl,hx⟩)

section shared

variable {done : List Interval} {later : Nat} {x a b : Interval}

/-- The variables of a slot behind the parameters are among those that were placed. -/
theorem Framed.exists_placed (h : r.Framed) (hdone : Sharing.Complete r done later)
    (hn : r.params ≤ n) (hocc : r.shareSlots.routine.Occupies n pc) :
    ∃ y ∈ done, r.renamed y.slot = n ∧ y.start ≤ pc := by
  obtain ⟨x,rfl,hx⟩ := h.occupies_shared.mp hocc
  have hparams : r.params ≤ x := by
    by_contra hlt
    rw [h.renamed_param (Nat.lt_of_not_le hlt)] at hn
    exact hlt hn
  obtain ⟨y,hy,rfl⟩ := exists_interval hx (h.slot_lt hx)
  exact ⟨y,(hdone.mem y).mpr ⟨hy,hparams⟩,rfl,(covers_of_occupies hy hx).1⟩

/-- The interval of a slot starts with the one for which it was opened. -/
theorem Framed.start_shared (h : r.Framed) (hdone : Sharing.Complete r done later)
    (ha : a ∈ r.shareSlots.routine.intervals) (hparams : r.params ≤ a.slot)
    (hx : Sharing.Opens r done (Sharing.allocate r) a.slot x) : a.start = x.start := by
  apply Nat.le_antisymm
  · have hocc := (occupies_ends ((hdone.mem x).mp hx.mem).1).1
    exact (covers_of_occupies ha (h.occupies_shared.mpr ⟨x.slot,hx.slot,hocc⟩)).1
  · obtain ⟨y,hy,hslot,hstart⟩ := h.exists_placed hdone hparams (occupies_ends ha).1
    exact Nat.le_trans (hx.first y hy hslot) hstart

/-- The interval of a slot reaches to the end of every interval in it. -/
theorem Framed.stop_le_shared (h : r.Framed) (ha : a ∈ r.shareSlots.routine.intervals)
    (hx : x ∈ r.intervals) (hslot : r.renamed x.slot = a.slot) : x.stop ≤ a.stop :=
  (covers_of_occupies ha (h.occupies_shared.mpr ⟨x.slot,hslot,(occupies_ends hx).2⟩)).2

/-- New slots are numbered in the order of their intervals, none of which can share with another. -/
theorem Framed.crosses_of_before (h : r.Framed) (hdone : Sharing.Complete r done later)
    (ha : a ∈ r.shareSlots.routine.intervals) (hb : b ∈ r.shareSlots.routine.intervals)
    (haparams : r.params ≤ a.slot) (hbparams : r.params ≤ b.slot) (hne : a.slot ≠ b.slot)
    (hab : a.Before b) : a.slot < b.slot ∧ a.Crosses b := by
  obtain ⟨x,hx⟩ := hdone.inUse.opened a.slot haparams (slot_lt_of_interval ha)
  obtain ⟨y,hy⟩ := hdone.inUse.opened b.slot hbparams (slot_lt_of_interval hb)
  have hastart := h.start_shared hdone ha haparams hx
  have hbstart := h.start_shared hdone hb hbparams hy
  have hlt : a.slot < b.slot := by
    by_contra hge
    have hgt : b.slot < a.slot := Nat.lt_of_le_of_ne (Nat.le_of_not_lt hge) hne.symm
    obtain ⟨z,hz,hslot,hstart,_⟩ := hx.earlier b.slot hbparams hgt
    have hle : b.start ≤ a.start := by
      rw [hastart,hbstart]
      exact Nat.le_trans (hy.first z hz hslot) hstart
    rcases hab with hlt | ⟨_,hlt⟩
    · exact Nat.not_lt.mpr hle hlt
    · exact hge hlt
  refine ⟨hlt,hab.le,fun htype => ?_⟩
  obtain ⟨z,hz,hslot,_,hstop⟩ := hy.earlier a.slot haparams hlt
  have haholds : Sharing.Holds (Sharing.allocate r).frame a.slot a.info.type :=
    holds_of_interval ha
  have hbholds : Sharing.Holds (Sharing.allocate r).frame b.slot b.info.type :=
    holds_of_interval hb
  have hyholds := (hdone.placed.placed y hy.mem).2
  rw [hy.slot] at hyholds
  have hytype : y.info.type = a.info.type :=
    (Option.some.inj (hyholds.symm.trans hbholds)).trans htype.symm
  calc b.start = y.start := hbstart
    _ ≤ z.stop := hstop (hytype ▸ haholds)
    _ ≤ a.stop := h.stop_le_shared ha ((hdone.mem z).mp hz).1 hslot

end shared

end RoutineCode

theorem Frame.map_range'_getElem? (f : Frame) (k : Nat) :
    (List.range' k (f.length - k)).map (f[·]?) = (f.drop k).map some := by
  refine List.ext_getElem (by simp) fun i hi hi' => ?_
  simp only [List.length_map,List.length_drop] at hi'
  rw [List.getElem_map,List.getElem_map,List.getElem_range',List.getElem_drop,Nat.one_mul]
  exact List.getElem?_eq_getElem (by omega)

namespace RoutineCode

variable {r : RoutineCode}

/-- Nothing changes if the allocation gives each slot its own number. -/
theorem shareSlots_of_same (hframe : (Sharing.allocate r).frame = r.frame)
    (hmapping : ∀ p ∈ (Sharing.allocate r).mapping, p.1 = p.2)
    (hshared : (Sharing.allocate r).shared = []) : r.shareSlots = ⟨r,0,[]⟩ := by
  have hcode : r.code.map (Instr.renumber (Sharing.allocate r).rename) = r.code := by
    rw [List.map_congr_left fun i _ => Instr.renumber_of_same (Sharing.rename_of_same hmapping) i,
      List.map_id']
  simp only [shareSlots,hframe,hshared,hcode,Nat.sub_self]

theorem shareSlots_of_length_le (h : r.frame.Indexed) (hparams : r.frame.length ≤ r.params) :
    r.shareSlots = ⟨r,0,[]⟩ := by
  have hallocate := Sharing.allocate_of_length_le hparams
  refine shareSlots_of_same ?_ ?_ ?_
  · rw [hallocate]
    exact List.take_of_length_le hparams
  · rw [hallocate]
    exact Sharing.mapping_start h
  · rw [hallocate]
    rfl

/-- The intervals of the slots behind the parameters are in the order of the slots, and none of them
can share with another. -/
theorem Framed.movable_shared (h : r.Framed) :
    r.shareSlots.routine.movable.map (·.slot) =
      List.range' r.params (r.shareSlots.routine.frame.length - r.params) ∧
    r.shareSlots.routine.movable.Pairwise Interval.Crosses := by
  obtain ⟨done,later,hdone⟩ := Sharing.exists_complete h.indexed h.params
  have hlength : r.params ≤ r.shareSlots.routine.frame.length := hdone.placed.length
  have hpairs : r.shareSlots.routine.movable.Pairwise
      fun a b => a.slot < b.slot ∧ a.Crosses b := by
    have hdistinct := List.pairwise_map.mp r.shareSlots.routine.nodup_intervals
    have hboth := (r.shareSlots.routine.ordered_intervals.and hdistinct).sublist
      r.shareSlots.routine.movable_sublist
    refine hboth.imp_of_mem fun ha hb hab => ?_
    obtain ⟨ha,haparams⟩ := mem_movable.mp ha
    obtain ⟨hb,hbparams⟩ := mem_movable.mp hb
    exact h.crosses_of_before hdone ha hb haparams hbparams hab.2 hab.1
  refine ⟨?_,hpairs.imp And.right⟩
  have hslots : (r.shareSlots.routine.movable.map (·.slot)).Pairwise (· < ·) :=
    List.pairwise_map.mpr (hpairs.imp And.left)
  have hperm : (r.shareSlots.routine.movable.map (·.slot)).Perm
      (List.range' r.params (r.shareSlots.routine.frame.length - r.params)) := by
    refine (List.perm_ext_iff_of_nodup (hslots.imp Nat.ne_of_lt) List.nodup_range').mpr fun n => ?_
    rw [List.mem_map,List.mem_range'_1,Nat.add_sub_cancel' hlength]
    constructor
    · rintro ⟨z,hz,rfl⟩
      obtain ⟨hz,hparams⟩ := mem_movable.mp hz
      exact ⟨hparams,slot_lt_of_interval hz⟩
    · rintro ⟨hparams,hlt⟩
      obtain ⟨x,hx⟩ := hdone.inUse.opened n hparams hlt
      have hocc := (occupies_ends ((hdone.mem x).mp hx.mem).1).1
      obtain ⟨z,hz,hslot⟩ := exists_interval (h.occupies_shared.mpr ⟨x.slot,hx.slot,hocc⟩) hlt
      exact ⟨z,mem_movable.mpr ⟨hz,hslot ▸ hparams⟩,hslot⟩
  exact hperm.eq_of_pairwise (fun _ _ _ _ hab hba => absurd hba (Nat.lt_asymm hab)) hslots
    List.pairwise_lt_range'

theorem Framed.shareSlots_shared (h : r.Framed) :
    r.shareSlots.routine.shareSlots = ⟨r.shareSlots.routine,0,[]⟩ := by
  obtain ⟨hslots,hcross⟩ := h.movable_shared
  have hframed := h.shareSlots
  have hlength : (Sharing.start r.shareSlots.routine).frame.length = r.params :=
    List.length_take_of_le hframed.params
  have hcount := congrArg List.length hslots
  rw [List.length_map,List.length_range'] at hcount
  have hinfo : ∀ z ∈ r.shareSlots.routine.movable,
      r.shareSlots.routine.frame[z.slot]? = some z.info :=
    fun z hz => getElem?_of_interval (mem_movable.mp hz).1
  obtain ⟨hframe,hmapping,hshared⟩ := Sharing.foldl_place_of_crosses hcross
    (Sharing.blocked_start r.shareSlots.routine _)
    (fun z hz => hframed.indexed z.slot z.info (hinfo z hz))
    (by rw [hslots,hlength,hcount])
    (Sharing.mapping_start hframed.indexed)
  refine shareSlots_of_same (hframe.trans ?_) hmapping hshared
  have hinfos : r.shareSlots.routine.movable.map (·.info) =
      r.shareSlots.routine.frame.drop r.params := by
    refine (List.map_inj_right fun _ _ => Option.some.inj).mp ?_
    rw [← Frame.map_range'_getElem?,← hslots,List.map_map,List.map_map]
    exact List.map_congr_left fun z hz => (hinfo z hz).symm
  rw [hinfos]
  exact List.take_append_drop _ _

/-- Sharing the slots of a routine whose slots are shared saves none and leaves code and frame as they
are. -/
theorem shareSlots_shareSlots (hindexed : r.frame.Indexed) (hwithin : r.code.Within r.frame.length) :
    r.shareSlots.routine.shareSlots = ⟨r.shareSlots.routine,0,[]⟩ := by
  rcases Nat.le_total r.params r.frame.length with hparams | hparams
  · exact Framed.shareSlots_shared ⟨hindexed,hwithin,hparams⟩
  · rw [shareSlots_of_length_le hindexed hparams]
    exact shareSlots_of_length_le hindexed hparams

end RoutineCode

/-- A variable that ends where the next begins, which is needed all through a loop with a third. -/
def relaying : RoutineCode where
  name := "RELAY"
  params := 0
  returns := .void
  frame := [⟨0,.scalar .integer,.localVar,["A"]⟩,⟨1,.scalar .integer,.localVar,["B"]⟩,
    ⟨2,.scalar .integer,.temporary,[]⟩]
  code := [.const (.integer 1),.store (.slot 0),.load (.slot 0),.store (.slot 1),.label 0,
    .load (.slot 1),.store (.slot 2),.load (.slot 2),.call (.runtime "WRITE") 1 false,
    .load (.slot 1),.const (.integer 0),.binary .gt .integer,.branchIf true 0,.ret false]

theorem RoutineCode.shareSlots_shareSlots_relaying :
    relaying.frame.Indexed ∧ relaying.code.Within relaying.frame.length ∧
      relaying.shareSlots.saved = 1 ∧ relaying.shareSlots.shared = [(1,0)] ∧
      relaying.shareSlots.routine.shareSlots = ⟨relaying.shareSlots.routine,0,[]⟩ := by
  have hindexed : relaying.frame.Indexed := by decide
  have hwithin : relaying.code.Within relaying.frame.length := by decide
  exact ⟨hindexed,hwithin,by decide +kernel,by decide +kernel,
    RoutineCode.shareSlots_shareSlots hindexed hwithin⟩

end StackCompiler
