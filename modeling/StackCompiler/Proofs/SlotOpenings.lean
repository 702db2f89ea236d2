import StackCompiler.Proofs.SharedSlots

/-! When the allocation opens a new slot.
It does so only if every slot of the type is taken, that is, holds an interval which has started and
not ended. The invariant says this of every slot behind the parameters, of the interval for which it
was opened. -/
namespace StackCompiler.Sharing

theorem freeSlot?_eq_none_iff {s : State} {t : Ty} :
    s.freeSlot? t = none ↔ ∀ p ∈ s.free, p.2 ≠ t := by
  rw [State.freeSlot?,List.min?_eq_none_iff,List.map_eq_nil_iff,List.filter_eq_nil_iff]
  simp only [beq_iff_eq,ne_eq]

/-- The slot was opened for the interval: none in the slot starts earlier, and each earlier slot has
one that had started by then and, if it is of the same type, not ended. -/
structure Opens (r : RoutineCode) (done : List Interval) (s : State) (n : Slot) (x : Interval) :
    Prop where
  mem : x ∈ done
  slot : s.rename x.slot = n
  first : ∀ y ∈ done, s.rename y.slot = n → x.start ≤ y.start
  earlier : ∀ m, r.params ≤ m → m < n → ∃ y ∈ done, s.rename y.slot = m ∧ y.start ≤ x.start ∧
    (Holds s.frame m x.info.type → x.start ≤ y.stop)

/-- No interval starts after the position, every slot behind the parameters is free or taken, the
latter until an interval in it ends, and each was opened for some interval. -/
structure InUse (r : RoutineCode) (done : List Interval) (position : Nat) (s : State) : Prop where
  started : ∀ x ∈ done, x.start ≤ position
  taken : ∀ n, r.params ≤ n → n < s.frame.length →
    n ∈ s.free.map (·.1) ∨ n ∈ s.active.map (·.slot)
  holder : ∀ a ∈ s.active, ∃ x ∈ done, s.rename x.slot = a.slot ∧ x.stop = a.stop
  opened : ∀ n, r.params ≤ n → n < s.frame.length → ∃ x, Opens r done s n x

section allocation

variable {r : RoutineCode} {done : List Interval} {position : Nat} {s : State} {x : Interval}

theorem inUse_start (r : RoutineCode) : InUse r [] 0 (start r) where
  started x hx := by cases hx
  taken n hn hlt := by
    simp only [start,List.length_take] at hlt
    omega
  holder a ha := by cases ha
  opened n hn hlt := by
    simp only [start,List.length_take] at hlt
    omega

theorem InUse.expire (h : InUse r done position s) {later : Nat} (hle : position ≤ later) :
    InUse r done later (s.expire later) where
  started x hx := Nat.le_trans (h.started x hx) hle
  taken n hn hlt := by
    rw [free_expire,active_expire,List.map_append,List.mem_append]
    rcases h.taken n hn hlt with hfree | hactive
    · exact .inl (.inl hfree)
    · obtain ⟨a,ha,rfl⟩ := List.mem_map.mp hactive
      by_cases hend : a.stop < later
      · refine .inl (.inr (List.mem_map.mpr ⟨(a.slot,a.type),?_,rfl⟩))
        exact List.mem_map.mpr ⟨a,List.mem_filter.mpr ⟨ha,decide_eq_true hend⟩,rfl⟩
      · exact .inr (List.mem_map.mpr ⟨a,List.mem_filter.mpr ⟨ha,by simpa using hend⟩,rfl⟩)
  holder a ha := by
    rw [active_expire] at ha
    exact h.holder a (List.mem_of_mem_filter ha)
  opened n hn hlt := by
    obtain ⟨x,hx⟩ := h.opened n hn hlt
    exact ⟨x,hx.mem,hx.slot,hx.first,hx.earlier⟩

/-- An interval is put into a slot, a new one only if it opens it. -/
theorem InUse.occupy (h : InUse r done x.start s) {slot : Slot} {frame : Frame}
    {free : List (Slot × Ty)} (shared : List (Slot × Slot)) (hnew : ∀ y ∈ done, y.slot ≠ x.slot)
    (hframe : ∀ n < frame.length, n = slot ∨ n < s.frame.length)
    (hholds : ∀ n t, n < s.frame.length → Holds frame n t → Holds s.frame n t)
    (hfree : ∀ n ∈ s.free.map (·.1), n = slot ∨ n ∈ free.map (·.1))
    (hopens : slot < s.frame.length ∨ (∀ y ∈ done, s.rename y.slot ≠ slot) ∧
      ∀ m, r.params ≤ m → m < slot → ∃ y ∈ done, s.rename y.slot = m ∧ y.start ≤ x.start ∧
        (Holds frame m x.info.type → x.start ≤ y.stop)) :
    InUse r (x :: done) x.start
      ⟨frame,(x.slot,slot) :: s.mapping,free,s.active ++ [⟨x.stop,slot,x.info.type⟩],shared⟩ := by
  have hrename := rename_cons s x.slot slot frame free (s.active ++ [⟨x.stop,slot,x.info.type⟩])
    shared
  have hself := (hrename x.slot).trans (if_pos rfl)
  have hsame : ∀ y ∈ done, _ := fun y hy => (hrename y.slot).trans (if_neg (hnew y hy))
  have hold : ∀ n, r.params ≤ n → n < s.frame.length → ∃ y, Opens r (x :: done)
      ⟨frame,(x.slot,slot) :: s.mapping,free,s.active ++ [⟨x.stop,slot,x.info.type⟩],shared⟩ n y := by
    intro n hn hlt
    obtain ⟨y,hy⟩ := h.opened n hn hlt
    refine ⟨y,List.mem_cons_of_mem x hy.mem,(hsame y hy.mem).trans hy.slot,fun z hz hzn => ?_,
      fun m hm hmn => ?_⟩
    · rcases List.mem_cons.mp hz with rfl | hz
      · exact h.started y hy.mem
      · exact hy.first z hz ((hsame z hz).symm.trans hzn)
    · obtain ⟨z,hz,hslot,hstart,hstop⟩ := hy.earlier m hm hmn
      exact ⟨z,List.mem_cons_of_mem x hz,(hsame z hz).trans hslot,hstart,
        fun ht => hstop (hholds m _ (Nat.lt_trans hmn hlt) ht)⟩
  constructor
  case started =>
    intro y hy
    rcases List.mem_cons.mp hy with rfl | hy
    · exact Nat.le_refl _
    · exact h.started y hy
  case taken =>
    intro n hn hlt
    rw [List.map_append,List.mem_append]
    rcases hframe n hlt with rfl | hlt
    · exact .inr (.inr List.mem_cons_self)
    · rcases h.taken n hn hlt with hmem | hmem
      · rcases hfree n hmem with rfl | hmem
        · exact .inr (.inr List.mem_cons_self)
        · exact .inl hmem
      · exact .inr (.inl hmem)
  case holder =>
    intro a ha
    rcases List.mem_append.mp ha with ha | ha
    · obtain ⟨y,hy,hslot,hstop⟩ := h.holder a ha
      exact ⟨y,List.mem_cons_of_mem x hy,(hsame y hy).trans hslot,hstop⟩
    · obtain rfl := List.mem_singleton.mp ha
      exact ⟨x,List.mem_cons_self,hself,rfl⟩
  case opened =>
    intro n hn hlt
    rcases hframe n hlt with rfl | hlt
    · rcases hopens with hlt | ⟨hempty,hearlier⟩
      · exact hold n hn hlt
      · refine ⟨x,List.mem_cons_self,hself,fun y hy hyn => ?_,fun m hm hmn => ?_⟩
        · rcases List.mem_cons.mp hy with rfl | hy
          · exact Nat.le_refl _
          · exact absurd ((hsame y hy).symm.trans hyn) (hempty y hy)
        · obtain ⟨y,hy,hslot,hstart,hstop⟩ := hearlier m hm hmn
          exact ⟨y,List.mem_cons_of_mem x hy,(hsame y hy).trans hslot,hstart,hstop⟩
    · exact hold n hn hlt

/-- Where no slot of a type is free, those there are hold intervals that have not ended. -/
theorem InUse.exists_holder (h : InUse r done x.start s) (hp : Placed r done x.start s)
    (hactive : ∀ a ∈ s.active, x.start ≤ a.stop) (hnone : s.freeSlot? x.info.type = none) {n : Slot}
    (hn : r.params ≤ n) (hlt : n < s.frame.length) :
    ∃ y ∈ done, s.rename y.slot = n ∧ y.start ≤ x.start ∧
      (Holds s.frame n x.info.type → x.start ≤ y.stop) := by
  by_cases htype : Holds s.frame n x.info.type
  · rcases h.taken n hn hlt with hfree | hmem
    · obtain ⟨p,hmem,rfl⟩ := List.mem_map.mp hfree
      have heq : p.2 = x.info.type := Option.some.inj ((hp.free p hmem).2.1.symm.trans htype)
      exact absurd heq (freeSlot?_eq_none_iff.mp hnone p hmem)
    · obtain ⟨a,ha,rfl⟩ := List.mem_map.mp hmem
      obtain ⟨y,hy,hslot,hstop⟩ := h.holder a ha
      exact ⟨y,hy,hslot,h.started y hy,fun _ => hstop ▸ hactive a ha⟩
  · obtain ⟨y,hy⟩ := h.opened n hn hlt
    exact ⟨y,hy.mem,hy.slot,h.started y hy.mem,fun ht => absurd ht htype⟩

theorem InUse.place (h : InUse r done position s) (hp : Placed r done position s)
    (hx : Next r done position x) : InUse r (x :: done) x.start (s.place x) := by
  have hu := h.expire hx.start
  have he := hp.expire hx.start
  simp only [State.place]
  split
  · next slot hslot =>
    have hmem := mem_of_freeSlot? hslot
    refine hu.occupy _ hx.new (fun n hn => .inr ?_) (fun n t _ => (holds_takeOver _).mp)
      (fun n hn => ?_) (.inl (he.free _ hmem).2.1.lt)
    · rwa [List.length_modify] at hn
    · obtain ⟨p,hp,rfl⟩ := List.mem_map.mp hn
      by_cases heq : p.1 = slot
      · exact .inl heq
      · refine .inr (List.mem_map.mpr ⟨p,List.mem_filter.mpr ⟨hp,?_⟩,rfl⟩)
        exact decide_eq_true fun hpair => heq (congrArg Prod.fst hpair)
  · next hnone =>
    have hactive : ∀ a ∈ (s.expire x.start).active, x.start ≤ a.stop := by
      rw [active_expire]
      intro a ha
      simpa using (List.mem_filter.mp ha).2
    have hbelow : ∀ n t, n < (s.expire x.start).frame.length → ∀ info,
        Holds ((s.expire x.start).frame ++ [info]) n t → Holds (s.expire x.start).frame n t := by
      intro n t hn info ht
      rwa [Holds,List.getElem?_append_left hn] at ht
    refine hu.occupy _ hx.new (fun n hn => ?_) (fun n t hn => hbelow n t hn _)
      (fun n hn => .inr hn) (.inr ⟨fun y hy => ?_,fun m hm hlt => ?_⟩)
    · rw [List.length_append,List.length_singleton] at hn
      omega
    · exact Nat.ne_of_lt (he.placed y hy).2.lt
    · obtain ⟨y,hy,hslot,hstart,hstop⟩ := hu.exists_holder he hactive hnone hm hlt
      exact ⟨y,hy,hslot,hstart,fun ht => hstop (hbelow m _ hlt _ ht)⟩

/-- The state at the end, when every interval that does not belong to a parameter is placed. -/
structure Complete (r : RoutineCode) (done : List Interval) (position : Nat) : Prop where
  placed : Placed r done position (allocate r)
  inUse : InUse r done position (allocate r)
  mem : ∀ x, x ∈ done ↔ x ∈ r.intervals ∧ r.params ≤ x.slot

theorem exists_complete (h : r.frame.Indexed) (hparams : r.params ≤ r.frame.length) :
    ∃ done later, Complete r done later := by
  obtain ⟨done,later,⟨hp,hu⟩,hdone⟩ := allocate_induction
    (P := fun done position s => Placed r done position s ∧ InUse r done position s)
    ⟨placed_start h hparams,inUse_start r⟩ fun _ _ _ _ hs hx =>
      ⟨hs.1.place hx.start hx.params hx.le hx.new,hs.2.place hs.1 hx⟩
  exact ⟨done,later,hp,hu,hdone⟩

theorem allocate_of_length_le (h : r.frame.length ≤ r.params) : allocate r = start r := by
  have hnone : r.movable = [] := by
    refine List.eq_nil_iff_forall_not_mem.mpr fun x hx => ?_
    obtain ⟨hx,hparams⟩ := RoutineCode.mem_movable.mp hx
    exact Nat.not_lt.mpr hparams (Nat.lt_of_lt_of_le (RoutineCode.slot_lt_of_interval hx) h)
  exact congrArg (List.foldl State.place (start r)) hnone

end allocation

end StackCompiler.Sharing
