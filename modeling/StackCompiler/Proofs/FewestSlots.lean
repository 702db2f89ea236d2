import StackCompiler.Proofs.SlotOpenings

/-! No allocation of the intervals needs fewer slots.
Intervals that cover one position are in different slots. When a slot was opened, the intervals in
the other slots of its type covered the position at which the new one started. So the slots of a type
are as many as its intervals at the most crowded position. -/
namespace StackCompiler

namespace Frame

def slotsOf (f : Frame) (first : Nat) (t : Ty) : List Slot :=
  ((f.zipIdx.drop first).filter (·.1.type = t)).map (·.2)

variable {f : Frame} {first : Nat} {t : Ty} {n : Slot}

theorem length_slotsOf (f : Frame) (first : Nat) (t : Ty) :
    (f.slotsOf first t).length = (f.drop first).countP (·.type = t) := by
  rw [slotsOf,List.length_map,← List.countP_eq_length_filter,← List.zipIdx_map_fst 0 f,
    ← List.map_drop,List.countP_map,List.zipIdx_map_fst]
  rfl

theorem mem_slotsOf : n ∈ f.slotsOf first t ↔ first ≤ n ∧ Sharing.Holds f n t := by
  have hmem : ∀ info k, (info,k) ∈ f.zipIdx.drop first ↔ first ≤ k ∧ f[k]? = some info := by
    intro info k
    rw [List.mem_iff_getElem?]
    simp only [List.getElem?_drop,List.getElem?_zipIdx,Option.map_eq_some_iff,Prod.mk.injEq]
    constructor
    · rintro ⟨j,_,hinfo,rfl,rfl⟩
      rw [Nat.zero_add]
      exact ⟨Nat.le_add_right first j,hinfo⟩
    · rintro ⟨hle,hinfo⟩
      rw [← Nat.add_sub_cancel' hle] at hinfo
      exact ⟨k - first,info,hinfo,rfl,by omega⟩
  simp only [slotsOf,List.mem_map,List.mem_filter,Prod.exists,hmem,Sharing.Holds,
    Option.map_eq_some_iff,decide_eq_true_eq]
  constructor
  · rintro ⟨info,_,⟨⟨hle,hinfo⟩,htype⟩,rfl⟩
    exact ⟨hle,info,hinfo,htype⟩
  · rintro ⟨hle,info,hinfo,htype⟩
    exact ⟨info,n,⟨⟨hle,hinfo⟩,htype⟩,rfl⟩

theorem pairwise_slotsOf (f : Frame) (first : Nat) (t : Ty) :
    (f.slotsOf first t).Pairwise (· < ·) := by
  have hindex : (f.zipIdx.map Prod.snd).Pairwise (· < ·) := by
    rw [List.zipIdx_map_snd]
    exact List.pairwise_lt_range'
  exact hindex.sublist ((List.filter_sublist.trans (List.drop_sublist _ _)).map Prod.snd)

theorem nodup_slotsOf (f : Frame) (first : Nat) (t : Ty) : (f.slotsOf first t).Nodup :=
  (f.pairwise_slotsOf first t).imp Nat.ne_of_lt

end Frame

namespace RoutineCode

def crowded (r : RoutineCode) (t : Ty) (pc : Nat) : List Interval :=
  r.intervals.filter fun x => r.params ≤ x.slot ∧ x.info.type = t ∧ x.start ≤ pc ∧ pc ≤ x.stop

/-- How many slots of a type that are no parameters have intervals that cover a position. -/
def crowd (r : RoutineCode) (t : Ty) (pc : Nat) : Nat := (r.crowded t pc).length

/-- The largest such number over all positions of the code, zero if there are none. -/
def peak (r : RoutineCode) (t : Ty) : Nat :=
  ((List.range r.code.length).map (r.crowd t)).foldr max 0

variable {r : RoutineCode} {t : Ty} {pc : Nat} {x : Interval}

theorem peak_le_iff {n : Nat} : r.peak t ≤ n ↔ ∀ pc < r.code.length, r.crowd t pc ≤ n := by
  have hfold : ∀ xs : List Nat, (xs.map (r.crowd t)).foldr max 0 ≤ n ↔
      ∀ pc ∈ xs, r.crowd t pc ≤ n := by
    intro xs
    induction xs with
    | nil => simp
    | cons pc xs ih => rw [List.map_cons,List.foldr_cons,Nat.max_le,ih,List.forall_mem_cons]
  rw [peak,hfold]
  simp only [List.mem_range]

theorem mem_crowded : x ∈ r.crowded t pc ↔
    x ∈ r.intervals ∧ r.params ≤ x.slot ∧ x.info.type = t ∧ x.start ≤ pc ∧ pc ≤ x.stop := by
  simp [crowded,List.mem_filter]

theorem slot_injective {x y : Interval} (hx : x ∈ r.intervals) (hy : y ∈ r.intervals)
    (h : x.slot = y.slot) : x = y :=
  List.inj_on_of_nodup_map r.nodup_intervals hx hy h

section allocated

variable {done : List Interval} {later : Nat}

theorem crowd_le (h : Sharing.Complete r done later) (t : Ty) (pc : Nat) :
    r.crowd t pc ≤ ((Sharing.allocate r).frame.drop r.params).countP (·.type = t) := by
  have hplaced : ∀ x ∈ r.crowded t pc, x ∈ done := by
    intro x hx
    obtain ⟨hx,hparams,_⟩ := mem_crowded.mp hx
    exact (h.mem x).mpr ⟨hx,hparams⟩
  have hinj : ∀ x ∈ r.crowded t pc, ∀ y ∈ r.crowded t pc, r.renamed x.slot = r.renamed y.slot →
      x = y := by
    intro x hx y hy heq
    obtain ⟨hxi,_,_,hxstart,hxstop⟩ := mem_crowded.mp hx
    obtain ⟨hyi,_,_,hystart,hystop⟩ := mem_crowded.mp hy
    by_contra hne
    have hslot : x.slot ≠ y.slot := fun heq => hne (slot_injective hxi hyi heq)
    rcases h.placed.apart x (hplaced x hx) y (hplaced y hy) hslot heq with hlt | hlt
    · omega
    · omega
  have hnodup : ((r.crowded t pc).map fun x => r.renamed x.slot).Nodup :=
    List.Nodup.map_on hinj (List.filter_sublist.nodup (List.Nodup.of_map _ r.nodup_intervals))
  have hsub : ((r.crowded t pc).map fun x => r.renamed x.slot) ⊆
      (Sharing.allocate r).frame.slotsOf r.params t := by
    intro n hn
    obtain ⟨x,hx,rfl⟩ := List.mem_map.mp hn
    obtain ⟨hparams,hholds⟩ := h.placed.placed x (hplaced x hx)
    exact Frame.mem_slotsOf.mpr ⟨hparams,(mem_crowded.mp hx).2.2.1 ▸ hholds⟩
  have hle := (List.subperm_of_subset hnodup hsub).length_le
  rwa [List.length_map,Frame.length_slotsOf] at hle

/-- The position at which the last slot of a type was opened is as crowded as there are such slots. -/
theorem le_crowd (h : Sharing.Complete r done later) (t : Ty) :
    ((Sharing.allocate r).frame.drop r.params).countP (·.type = t) = 0 ∨ ∃ pc < r.code.length,
      ((Sharing.allocate r).frame.drop r.params).countP (·.type = t) ≤ r.crowd t pc := by
  rw [← Frame.length_slotsOf]
  cases hlast : ((Sharing.allocate r).frame.slotsOf r.params t).getLast? with
  | none => exact .inl (by rw [List.getLast?_eq_none_iff.mp hlast]; rfl)
  | some n =>
    obtain ⟨hn,hholds⟩ := Frame.mem_slotsOf.mp (List.mem_of_getLast? hlast)
    obtain ⟨x,hx⟩ := h.inUse.opened n hn hholds.lt
    have hxi := ((h.mem x).mp hx.mem).1
    -- whatever is placed in a slot has the type of the slot
    have htype : ∀ y ∈ done, Sharing.Holds (Sharing.allocate r).frame (r.renamed y.slot) t →
        y.info.type = t := fun y hy ht => Option.some.inj ((h.placed.placed y hy).2.symm.trans ht)
    have hxslot : r.renamed x.slot = n := hx.slot
    have hxtype := htype x hx.mem (hxslot.symm ▸ hholds)
    have hsub : (Sharing.allocate r).frame.slotsOf r.params t ⊆
        (r.crowded t x.start).map fun y => r.renamed y.slot := by
      intro m hm
      obtain ⟨hmparams,hmholds⟩ := Frame.mem_slotsOf.mp hm
      have hle := Interval.le_getLast (Frame.pairwise_slotsOf _ _ _) hlast m hm
      rcases Nat.lt_or_eq_of_le hle with hlt | rfl
      · obtain ⟨y,hy,rfl,hstart,hstop⟩ := hx.earlier m hmparams hlt
        obtain ⟨hyi,hyparams⟩ := (h.mem y).mp hy
        refine List.mem_map.mpr ⟨y,mem_crowded.mpr ⟨hyi,hyparams,htype y hy hmholds,hstart,?_⟩,rfl⟩
        exact hstop (hxtype.symm ▸ hmholds)
      · refine List.mem_map.mpr ⟨x,mem_crowded.mpr ?_,hx.slot⟩
        exact ⟨hxi,((h.mem x).mp hx.mem).2,hxtype,Nat.le_refl _,start_le_stop hxi⟩
    have hle := (List.subperm_of_subset (Frame.nodup_slotsOf _ _ _) hsub).length_le
    rw [List.length_map] at hle
    exact .inr ⟨x.start,start_lt hxi,hle⟩

/-- Each slot behind the parameters stands for a slot that was there before. -/
theorem length_allocate_le (h : Sharing.Complete r done later) (hparams : r.params ≤ r.frame.length) :
    (Sharing.allocate r).frame.length ≤ r.frame.length := by
  have hold : (List.range' r.params ((Sharing.allocate r).frame.length - r.params)) ⊆
      (List.range' r.params (r.frame.length - r.params)).map r.renamed := by
    intro n hn
    obtain ⟨hle,hlt⟩ := List.mem_range'_1.mp hn
    obtain ⟨x,hx⟩ := h.inUse.opened n hle (by omega)
    obtain ⟨hxi,hxparams⟩ := (h.mem x).mp hx.mem
    refine List.mem_map.mpr ⟨x.slot,List.mem_range'_1.mpr ⟨hxparams,?_⟩,hx.slot⟩
    rw [Nat.add_sub_cancel' hparams]
    exact slot_lt_of_interval hxi
  have hle := (List.subperm_of_subset List.nodup_range' hold).length_le
  simp only [List.length_map,List.length_range'] at hle
  omega

end allocated

/-- For each type there are as many slots behind the parameters as its intervals at the most crowded
position; the parameters stay, and the slots that are saved are those by which the frame is shorter. -/
theorem fewest_shareSlots {r : RoutineCode} (h : r.frame.Indexed) :
    (∀ t, (r.shareSlots.routine.frame.drop r.params).countP (·.type = t) = r.peak t) ∧
    r.shareSlots.routine.frame.take r.params = r.frame.take r.params ∧
    r.shareSlots.routine.frame.length ≤ r.frame.length ∧
    r.shareSlots.saved = r.frame.length - r.shareSlots.routine.frame.length := by
  change (∀ t, ((Sharing.allocate r).frame.drop r.params).countP (·.type = t) = _) ∧
    (Sharing.allocate r).frame.take r.params = r.frame.take r.params ∧
    (Sharing.allocate r).frame.length ≤ r.frame.length ∧ _
  rcases Nat.le_total r.params r.frame.length with hparams | hparams
  · obtain ⟨done,later,hdone⟩ := Sharing.exists_complete h hparams
    refine ⟨fun t => Nat.le_antisymm ?_ ?_,hdone.placed.params,length_allocate_le hdone hparams,rfl⟩
    · rcases le_crowd hdone t with hzero | ⟨pc,hpc,hle⟩
      · exact hzero ▸ Nat.zero_le _
      · exact Nat.le_trans hle (peak_le_iff.mp (Nat.le_refl _) pc hpc)
    · exact peak_le_iff.mpr fun pc _ => crowd_le hdone t pc
  · have hframe : (Sharing.allocate r).frame = r.frame := by
      rw [Sharing.allocate_of_length_le hparams]
      exact List.take_of_length_le hparams
    have hcrowd : ∀ t pc, r.crowd t pc = 0 := by
      intro t pc
      refine List.length_eq_zero_iff.mpr (List.eq_nil_iff_forall_not_mem.mpr fun x hx => ?_)
      obtain ⟨hxi,hxparams,_⟩ := mem_crowded.mp hx
      exact Nat.not_lt.mpr hxparams (Nat.lt_of_lt_of_le (slot_lt_of_interval hxi) hparams)
    rw [hframe,List.drop_of_length_le hparams]
    refine ⟨fun t => ?_,rfl,Nat.le_refl _,rfl⟩
    exact (Nat.le_zero.mp (peak_le_iff.mpr fun pc _ => Nat.le_of_eq (hcrowd t pc))).symm

end RoutineCode

/-- Three whole numbers, of which two are in use together, one real number and one slot that nothing
refers to. -/
def mixing : RoutineCode where
  name := "MIX"
  params := 1
  returns := .void
  frame := [⟨0,.scalar .integer,.parameter,["N"]⟩,⟨1,.scalar .integer,.localVar,["A"]⟩,
    ⟨2,.scalar .integer,.localVar,["B"]⟩,⟨3,.scalar .integer,.localVar,["C"]⟩,
    ⟨4,.scalar .double,.localVar,["X"]⟩,⟨5,.scalar .integer,.temporary,[]⟩]
  code := [.load (.slot 0),.store (.slot 1),.load (.slot 0),.store (.slot 2),.load (.slot 1),
    .load (.slot 2),.binary .add .integer,.store (.slot 3),.load (.slot 3),.convert,
    .store (.slot 4),.load (.slot 4),.call (.runtime "WRITE") 1 false,.ret false]

theorem RoutineCode.fewest_shareSlots_mixing :
    mixing.frame.Indexed ∧ mixing.peak (.scalar .integer) = 2 ∧ mixing.peak (.scalar .double) = 1 ∧
      mixing.shareSlots.routine.frame.take 1 = mixing.frame.take 1 ∧
      mixing.shareSlots.routine.frame.length = 4 ∧ mixing.shareSlots.saved = 2 := by
  have hindexed : mixing.frame.Indexed := by decide
  obtain ⟨hcount,hparams,_,hsaved⟩ := RoutineCode.fewest_shareSlots hindexed
  have hinteger : (mixing.shareSlots.routine.frame.drop mixing.params).countP
      (·.type = .scalar .integer) = 2 := by decide +kernel
  have hdouble : (mixing.shareSlots.routine.frame.drop mixing.params).countP
      (·.type = .scalar .double) = 1 := by decide +kernel
  have hlength : mixing.shareSlots.routine.frame.length = 4 := by decide +kernel
  rw [hlength] at hsaved
  exact ⟨hindexed,(hcount _).symm.trans hinteger,(hcount _).symm.trans hdouble,hparams,hlength,
    hsaved⟩

end StackCompiler
