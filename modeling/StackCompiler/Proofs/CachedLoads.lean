import StackCompiler.Proofs.MeaningKept
import StackCompiler.Proofs.ReusedValues
import StackCompiler.Proofs.WatchedRuns

/-! Runs with kept values.
A routine that is made statement by statement shows the same when values are kept. Every load of a new
slot stands where a value was computed again, and between the store that fills the slot and the load
there is neither a call nor the end of a block nor a write to what the value depends on. -/
namespace StackCompiler

open Machine

/-- The value depends only on places that the code loads. -/
def ValueKey.DrawnFrom (code : Code) (k : ValueKey) : Prop :=
  ∀ p, k.mentions p = true → .load p ∈ code

namespace Reuse

section drawn

variable {code : Code} {s : Scan} {i : Instr} {n : Nat} {k : ValueKey}

theorem exists_of_top {n : Nat} (h : (s.top n).value = some k) : ∃ e ∈ s.stack, e.value = some k := by
  cases hs : s.stack with
  | nil =>
    rw [Scan.top,hs] at h
    cases h
  | cons e rest =>
    rw [Scan.top,hs] at h
    exact ⟨e,List.mem_cons_self,h⟩

theorem drawn_step (h : ∀ e ∈ s.stack, ∀ k, e.value = some k → k.DrawnFrom code) (hi : i ∈ code) :
    ∀ e ∈ (s.step i n).stack, ∀ k, e.value = some k → k.DrawnFrom code := by
  have hpush : ∀ (s' : Scan) value start, (∀ e ∈ s'.stack, e ∈ s.stack) →
      (∀ k, value = some k → k.DrawnFrom code) →
      ∀ e ∈ (s'.push value start).stack, ∀ k, e.value = some k → k.DrawnFrom code := by
    intro s' value start hsub hvalue e he k hk
    rcases List.mem_cons.mp he with rfl | he
    · exact hvalue k hk
    · exact h e (hsub e he) k hk
  have hdrop : ∀ j, ∀ e ∈ (s.drop j).stack, e ∈ s.stack := fun j e he => List.mem_of_mem_drop he
  have heffect : ∀ e ∈ (s.effect i n).stack, ∀ k, e.value = some k → k.DrawnFrom code := by
    intro e he k hk
    rcases List.mem_append.mp he with he | he
    · rw [(List.mem_replicate.mp he).2] at hk
      cases hk
    · exact h e (List.mem_of_mem_drop he) k hk
  cases i with
  | const l =>
    refine hpush s _ _ (fun _ => id) fun k hk p hp => ?_
    cases hk
    cases hp
  | load q =>
    refine hpush s _ _ (fun _ => id) fun k hk p hp => ?_
    cases hk
    obtain rfl : p = q := by simpa [ValueKey.mentions] using hp
    exact hi
  | unary | convert =>
    refine hpush _ _ _ (hdrop 1) fun k hk => ?_
    obtain ⟨kx,hx,rfl⟩ := Option.map_eq_some_iff.mp hk
    obtain ⟨e,he,hek⟩ := exists_of_top hx
    exact h e he kx hek
  | binary op t =>
    refine hpush _ _ _ (fun e he => hdrop 2 e (by rwa [stack_note] at he)) fun k hk => ?_
    obtain ⟨kx,hx,hk⟩ := Option.bind_eq_some_iff.mp hk
    obtain ⟨ky,hy,rfl⟩ := Option.map_eq_some_iff.mp hk
    obtain ⟨ex,hex,hxk⟩ := exists_of_top hx
    obtain ⟨ey,hey,hyk⟩ := exists_of_top hy
    intro p hp
    rcases Bool.or_eq_true_iff.mp hp with hp | hp
    · exact h ex (hdrop 1 ex hex) kx hxk p hp
    · exact h ey hey ky hyk p hp
  | label | branch | branchIf | ret =>
    intro e he
    cases he
  | _ => exact heffect

theorem drawn_scanAt (hn : n ≤ code.length) :
    ∀ e ∈ (scanAt code n).stack, ∀ k, e.value = some k → k.DrawnFrom code := by
  induction n with
  | zero =>
    intro e he
    cases he
  | succ n ih =>
    have hi := List.getElem?_eq_getElem hn
    rw [scanAt_succ hi]
    exact drawn_step (ih (Nat.le_of_succ_le hn)) (List.mem_of_getElem? hi)

/-- A value that could be kept was on top of the stack after its first evaluation. -/
theorem head?_of_available {f : Nat} (hn : n ≤ code.length) (h : (k,f) ∈ (scanAt code n).available) :
    ∃ start, (scanAt code (f + 1)).stack.head? = some ⟨some k,start⟩ := by
  have hlt := (available_scanAt hn h).1
  have hi := List.getElem?_eq_getElem (show f < code.length by omega)
  have hfirst := available_earlier hn h hlt (Nat.lt_succ_self f)
  rw [scanAt_succ hi] at hfirst ⊢
  rcases available_step hfirst with ⟨hold,_⟩ | ⟨_,_,htop⟩
  · exact absurd (available_scanAt (by omega) hold).1 (Nat.lt_irrefl f)
  · exact htop

theorem drawn_of_available {f : Nat} (hn : n ≤ code.length)
    (h : (k,f) ∈ (scanAt code n).available) : k.DrawnFrom code := by
  obtain ⟨start,htop⟩ := head?_of_available hn h
  have hlt := (available_scanAt hn h).1
  exact drawn_scanAt (n := f + 1) (by omega) _ (List.mem_of_mem_head? htop) k rfl

end drawn

end Reuse

theorem Patch.getElem?_targets {ps : List Patch} {q : Nat} {i : Instr}
    (h : (targets ps)[q]? = some i) : ∃ before p after j, ps = before ++ p :: after ∧
      q = (targets before).length + j ∧ p.target[j]? = some i := by
  induction ps generalizing q with
  | nil => cases h
  | cons p ps ih =>
    rw [targets_cons,List.getElem?_append] at h
    split at h
    · exact ⟨[],p,ps,q,rfl,by simp,h⟩
    · next hge =>
      obtain ⟨before,p',after,j,rfl,hq,hj⟩ := ih h
      refine ⟨p :: before,p',after,j,rfl,?_,hj⟩
      rw [targets_cons,List.length_append]
      omega

namespace RoutineCode

open Reuse

variable {r : RoutineCode} {pc q j n : Nat} {i : Instr}

theorem moved_mono {a b : Nat} (h : a ≤ b) : r.moved a ≤ r.moved b := by
  have hsplit := List.take_append_drop a (r.reusePatches.take b)
  rw [List.take_take,Nat.min_eq_left h] at hsplit
  rw [moved,moved,← hsplit,Patch.targets_append,List.length_append]
  exact Nat.le_add_right _ _

/-- Every new instruction belongs to what stands for an old one. -/
theorem exists_piece (h : r.reuseValues.routine.code[q]? = some i) : ∃ pc old j,
    r.code[pc]? = some old ∧ q = r.moved pc + j ∧ q < r.moved (pc + 1) ∧
      (Reuse.replace (kept r.code) r.cache pc old)[j]? = some i := by
  rw [← targets_reusePatches] at h
  obtain ⟨before,p,after,j,hsplit,hq,hj⟩ := Patch.getElem?_targets h
  have hget : r.reusePatches[before.length]? = some p := by simp [hsplit]
  have htake : r.reusePatches.take before.length = before := by rw [hsplit,List.take_left]
  obtain ⟨old,hold⟩ : ∃ old, r.code[before.length]? = some old := by
    have hlt := (List.getElem?_eq_some_iff.mp hget).1
    exact ⟨_,List.getElem?_eq_getElem (by simpa [reusePatches] using hlt)⟩
  obtain rfl := Option.some.inj (hget.symm.trans (getElem?_reusePatches hold))
  have hlt := (List.getElem?_eq_some_iff.mp hj).1
  have hplace : q = r.moved before.length + j := by rw [moved,htake,hq]
  refine ⟨before.length,old,j,hold,hplace,?_,hj⟩
  rw [moved_succ hold,hplace]
  exact Nat.add_lt_add_left hlt _

/-- What stands for an instruction is the instruction itself, the load of a kept value, or what keeps
one. -/
theorem piece_cases {old : Instr} (h : (Reuse.replace (kept r.code) r.cache pc old)[j]? = some i) :
    i = old ∨ i = .dup ∨ (∃ n, r.cache.lookup pc = some n ∧ i = .store (.slot n)) ∨
      ∃ x ∈ kept r.code, x.start = pc ∧ j = 0 ∧ ∃ n, r.cache.lookup x.first = some n ∧
        i = .load (.slot n) := by
  cases hfind : (kept r.code).find? (Repeat.covers · pc) with
  | some x =>
    have hx := List.mem_of_find?_eq_some hfind
    have hcovers := List.find?_some hfind
    obtain ⟨n,hn⟩ := exists_lookup hx
    rw [replace_inside hx hcovers hn] at h
    split at h
    · next hstart =>
      rcases j with _ | j <;> cases h
      exact .inr (.inr (.inr ⟨x,hx,hstart,rfl,n,hn,rfl⟩))
    · cases h
  | none =>
    rw [replace_outside hfind] at h
    split at h
    · next n hn =>
      rcases j with _ | _ | _ | j <;> cases h
      · exact .inl rfl
      · exact .inr (.inl rfl)
      · exact .inr (.inr (.inl ⟨n,hn,rfl⟩))
    · rcases j with _ | j <;> cases h
      exact .inl rfl

theorem has_first {x : Repeat} (hx : x ∈ kept r.code) (hn : r.cache.lookup x.first = some n) :
    r.moved (x.first + 1) = r.moved x.first + 3 ∧
      r.reuseValues.routine.code[r.moved x.first + 2]? = some (.store (.slot n)) := by
  obtain ⟨_,op,t,hop⟩ := kept_of_lookup hn
  have hout : (kept r.code).find? (Repeat.covers · x.first) = none :=
    List.find?_eq_none.mpr fun y hy => by simp [covers_first hx hy]
  have hreplace := replace_outside hout (.binary op t)
  rw [hn] at hreplace
  have hhas := has_moved hop
  rw [hreplace] at hhas
  have hstore := (Code.has_cons.mp (Code.has_cons.mp (Code.has_cons.mp hhas).2).2).1
  exact ⟨by rw [moved_succ hop,hreplace]; rfl,hstore⟩

/-- What a load of a kept value stands for. The slot is filled right after the value was first
computed, and the load stands where it was computed again; neither a call nor the end of a block nor a
write to what the value depends on is in between. -/
structure Recalls (r : RoutineCode) (n : Slot) (p q : Nat) (k : ValueKey) (first start : Nat) :
    Prop where
  before : p < q
  store : r.reuseValues.routine.code[p]? = some (.store (.slot n))
  spared : ∀ j i, p < j → j < q → r.reuseValues.routine.code[j]? = some i → i.Spares k
  filled : p = r.moved first + 2
  loaded : q = r.moved start
  /-- The value is the one on top of the symbolic stack after its first evaluation. -/
  known : ∃ a, (scanAt r.code (first + 1)).stack.head? = some ⟨some k,a⟩
  /-- If control comes there at all, the code of the value stands right before. -/
  computed : ∀ st, r.code.Visits first st → ∃ a, r.code.Has a k.code ∧ a + k.code.length = first + 1
  /-- And the code that the load replaces is the code of the value, too. -/
  repeated : ∀ st, r.code.Visits start st → r.code.Has start k.code ∧
    r.moved (start + k.code.length) = q + 1

section recalls

variable (hwithin : r.code.Within r.frame.length)

include hwithin

/-- Nothing between a first evaluation and its repeat changes the value in the new code either: what
is added only writes new slots. -/
theorem spares_between {x : Repeat} {k : ValueKey} (hk : Repeat.Repeats r.code x k)
    (hlow : r.moved (x.first + 1) ≤ q) (hhigh : q < r.moved x.start)
    (hi : r.reuseValues.routine.code[q]? = some i) : i.Spares k := by
  obtain ⟨pc,old,j,hold,hq,hlt,hj⟩ := exists_piece hi
  have hfirst : x.first < pc := by
    by_contra hle
    have := r.moved_mono (show pc + 1 ≤ x.first + 1 by omega)
    omega
  have hstart : pc < x.start := by
    by_contra hle
    have := r.moved_mono (Nat.le_of_not_lt hle)
    omega
  have hstop := hk.start_le
  rcases piece_cases hj with rfl | rfl | ⟨n,hn,rfl⟩ | ⟨_,_,_,_,n,_,rfl⟩
  · exact spares_of_available (Nat.le_of_lt hk.length) hk.available hfirst (by omega) hold
  · exact ⟨rfl,rfl,fun p hp => by cases hp⟩
  · refine ⟨rfl,rfl,fun p hp => ?_⟩
    cases hp
    rw [← Bool.not_eq_true]
    intro hmentions
    have hload := drawn_of_available (Nat.le_of_lt hk.length) hk.available _ hmentions
    exact absurd (hwithin _ hload _ rfl n rfl) (Nat.not_lt.mpr (le_of_lookup hn))
  · exact ⟨rfl,rfl,fun p hp => by cases hp⟩

theorem exists_recalls (hcode : r.code.Shaped) (hn : r.frame.length ≤ n)
    (hq : r.reuseValues.routine.code[q]? = some (.load (.slot n))) :
    ∃ p k first start, r.Recalls n p q k first start := by
  obtain ⟨pc,old,j,hold,hplace,_,hj⟩ := exists_piece hq
  rcases piece_cases hj with rfl | hdup | ⟨_,_,hstore⟩ | ⟨x,hx,rfl,rfl,m,hm,hload⟩
  · exact absurd (hwithin _ (List.mem_of_getElem? hold) _ rfl n rfl) (Nat.not_lt.mpr hn)
  · cases hdup
  · cases hstore
  · cases hload
    obtain ⟨k,hk⟩ := repeats_of_kept hx
    have hlength := hk.length
    have hfirst := first_lt_start hx
    obtain ⟨hnext,hstore⟩ := has_first hx hm
    obtain ⟨a,ha⟩ := head?_of_available (Nat.le_of_lt hlength) hk.available
    have hbefore : r.moved (x.first + 1) ≤ r.moved x.start := r.moved_mono hfirst
    refine ⟨_,k,x.first,x.start,by omega,hstore,fun j i hlow hhigh hi => ?_,rfl,hplace,⟨a,ha⟩,?_,?_⟩
    · exact spares_between hwithin hk (by omega) (by omega) hi
    · intro st hvisits
      obtain ⟨_,op,t,hop⟩ := kept_of_lookup hm
      have hblock := hcode.block_next hvisits hop rfl
      exact ⟨a,has_of_block hblock ha fun h => h.1⟩
    · intro st hvisits
      obtain ⟨hhas,hend⟩ := hk.has_of_visits hcode hfirst hvisits
      refine ⟨hhas,?_⟩
      rw [hend,moved_inside hx (Nat.lt_succ_of_le hk.start_le) (Nat.le_refl _)]
      omega

end recalls

end RoutineCode

/-- A routine that is made statement by statement and refers to its frame only shows the same when
values are kept, whatever its slots, the store and earlier calls are and whatever the operators do.
Every load of a new slot recalls a value. -/
theorem RoutineCode.shows_reuse {r : RoutineCode} (hcode : r.code.Shaped)
    (hwithin : r.code.Within r.frame.length) :
    (∀ (h : Host) (slots slots' : Slot → Value) (s : Store) (calls : List Call),
      (∀ n < r.frame.length, slots' n = slots n) → ∀ seen,
        Shows h r.code r.visible ⟨⟨0,[],slots⟩,s,calls⟩ seen ↔
          Shows h r.reuseValues.routine.code r.visible ⟨⟨0,[],slots'⟩,s,calls⟩ seen) ∧
    ∀ q n, r.frame.length ≤ n → r.reuseValues.routine.code[q]? = some (.load (.slot n)) →
      ∃ p k first start, r.Recalls n p q k first start := by
  refine ⟨fun h slots slots' s calls hslots seen => ?_,fun q n => exists_recalls hwithin hcode⟩
  have hstart : Moment.Related h r.code (Mirrors h.operations r) False ⟨⟨0,[],slots⟩,s,calls⟩
      ⟨⟨0,[],slots'⟩,s,calls⟩ :=
    ⟨mirrors_start _ r s hslots,rfl,rfl,False.elim⟩
  exact shows_iff_of_follows (fun _ _ _ hm => Mirrors.follows hm hcode hwithin) hstart seen

/-- A loop that computes twice the sum of two variables for two others. -/
def doubling : RoutineCode where
  name := "DOUBLE"
  params := 2
  returns := .void
  frame := [⟨0,.scalar .integer,.parameter,["A"]⟩,⟨1,.scalar .integer,.parameter,["B"]⟩,
    ⟨2,.scalar .integer,.localVar,["X"]⟩,⟨3,.scalar .integer,.localVar,["Y"]⟩]
  code := [.label 0,.load (.slot 0),.load (.slot 1),.binary .add .integer,.const (.integer 2),
    .binary .mul .integer,.store (.slot 2),.load (.slot 0),.load (.slot 1),.binary .add .integer,
    .const (.integer 2),.binary .mul .integer,.store (.slot 3),.load (.slot 2),
    .call (.runtime "WRITE") 1 false,.load (.slot 3),.const (.integer 0),.binary .gt .integer,
    .branchIf true 0,.ret false]

theorem RoutineCode.shows_reuse_doubling :
    doubling.code.Shaped ∧ doubling.code.Within doubling.frame.length ∧
      doubling.reuseValues.routine.code[9]? = some (.load (.slot 4)) ∧
      (∀ seen, Shows Lowering.quiet doubling.code doubling.visible
          ⟨⟨0,[],fun _ => .scalar (.integer 1)⟩,⟨fun _ => .nothing,[]⟩,[]⟩ seen ↔
        Shows Lowering.quiet doubling.reuseValues.routine.code doubling.visible
          ⟨⟨0,[],fun n => if n < 4 then .scalar (.integer 1) else .nothing⟩,⟨fun _ => .nothing,[]⟩,[]⟩
          seen) ∧
      ∃ p k first start, doubling.Recalls 4 p 9 k first start := by
  have hcode : doubling.code.Disciplined := rfl
  have hload : doubling.reuseValues.routine.code[9]? = some (.load (.slot 4)) := by decide +kernel
  have hwithin : doubling.code.Within doubling.frame.length := by decide
  obtain ⟨hshows,hrecalls⟩ := RoutineCode.shows_reuse hcode.shaped hwithin
  exact ⟨hcode.shaped,hwithin,hload,hshows _ _ _ _ _ fun n hn => if_pos hn,
    hrecalls 9 4 (Nat.le_refl 4) hload⟩

end StackCompiler
