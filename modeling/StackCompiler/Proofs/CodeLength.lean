import Mathlib.Data.List.Perm.Subperm
import StackCompiler.Optimize.Passes
import StackCompiler.Proofs.NormalForm
import StackCompiler.Proofs.ReusedValues

/-! Passes do not make code longer.
Sharing slots renames them, and no rule replaces a window by a longer one. Keeping a value costs two
instructions, but a stretch that is replaced has two operands and an operator, so that at least two
instructions are saved wherever a kept value is loaded. -/
namespace StackCompiler

def Instr.isBinary : Instr → Bool
  | .binary .. => true
  | _ => false

namespace Window

theorem Rule.length_le {rest window replacement : Code} (h : Rule rest window replacement) :
    replacement.length ≤ window.length := by
  cases h <;> simp

theorem length_segments {xs : List Segment}
    (h : ∀ window replacement, .replaced window replacement ∈ xs →
      replacement.length ≤ window.length) :
    (xs.map Segment.code).flatten.length ≤ (xs.flatMap Segment.source).length := by
  induction xs with
  | nil => exact Nat.le_refl _
  | cons x xs ih =>
    have hrest := ih fun window replacement hmem => h window replacement (List.mem_cons_of_mem x hmem)
    rw [List.map_cons,List.flatten_cons,List.flatMap_cons,List.length_append,List.length_append]
    cases x with
    | kept i => exact Nat.add_le_add_left hrest 1
    | replaced window replacement =>
      exact Nat.add_le_add (h window replacement List.mem_cons_self) hrest

theorem length_pass_le (code : Code) : (pass code).length ≤ code.length := by
  have hrules : ∀ window replacement, .replaced window replacement ∈ segments 0 code →
      replacement.length ≤ window.length := by
    intro window replacement hmem
    obtain ⟨before,after,hsplit⟩ := List.append_of_mem hmem
    exact (rule_of_segments hsplit).length_le
  have hjoined := length_segments hrules
  rw [flatMap_source_segments,List.drop_zero] at hjoined
  exact Nat.le_trans (length_reachable_le true (joined code)) hjoined

theorem Loop.length_le {code : Code} {out : Simplified} (h : Loop code out) :
    out.code.length ≤ code.length := by
  induction h with
  | @done code _ => exact length_pass_le code
  | @again code _ _ _ ih => exact Nat.le_trans ih (length_pass_le code)

end Window

namespace Reuse

/-- A known value was begun after those below it. -/
def Layered (es : List Entry) : Prop :=
  es.Pairwise fun above below => above.value.isSome = true → below.start < above.start

section layered

variable {code : Code} {n : Nat} {i : Instr} {s : Scan}

/-- A value that is known only if the one that was on top is known, begun where that was. -/
theorem Layered.top {es : List Entry} (h : Layered es) {value : Option ValueKey} {default : Nat}
    (hvalue : value.isSome = true → (es.headD ⟨none,default⟩).value.isSome = true) :
    Layered (⟨value,(es.headD ⟨none,default⟩).start⟩ :: es.drop 1) := by
  cases es with
  | nil => exact List.pairwise_singleton _ _
  | cons e rest =>
    obtain ⟨hbelow,hrest⟩ := List.pairwise_cons.mp h
    exact List.pairwise_cons.mpr ⟨fun b hb hsome => hbelow b hb (hvalue hsome),hrest⟩

theorem Layered.effect (h : Layered s.stack) : Layered (s.effect i n).stack := by
  refine List.pairwise_append.mpr ⟨?_,h.drop,?_⟩
  · exact List.pairwise_replicate.mpr (.inr fun hsome => by cases hsome)
  · intro above habove below _ hsome
    rw [(List.mem_replicate.mp habove).2] at hsome
    cases hsome

theorem Layered.step (h : Layered s.stack) (hplaced : Placed code n s.stack) :
    Layered (s.step i n).stack := by
  have hnew : ∀ value : Option ValueKey, Layered (⟨value,n⟩ :: s.stack) := fun value =>
    List.pairwise_cons.mpr ⟨fun b hb _ => (hplaced.unbroken b hb).1,h⟩
  cases i with
  | const | load => exact hnew _
  | unary | convert =>
    refine h.top fun hsome => ?_
    rw [Option.isSome_map] at hsome
    exact hsome
  | binary op t =>
    have hrest : Layered (s.drop 1).stack := h.drop
    have htop : Layered (⟨((s.drop 1).top (s.top n).start).value.bind fun kx =>
        (s.top n).value.map fun ky => .binary op t kx ky,((s.drop 1).top (s.top n).start).start⟩ ::
          (s.drop 1).stack.drop 1) := by
      refine hrest.top fun hsome => ?_
      obtain ⟨k,hk⟩ := Option.isSome_iff_exists.mp hsome
      obtain ⟨kx,hx,_⟩ := Option.bind_eq_some_iff.mp hk
      exact Option.isSome_iff_exists.mpr ⟨kx,hx⟩
    simp only [Scan.step,Scan.push,stack_note]
    rwa [Scan.drop,List.drop_drop] at htop
  | label | branch | branchIf | ret => exact List.Pairwise.nil
  | _ => exact h.effect

theorem layered_scanAt (hn : n ≤ code.length) : Layered (scanAt code n).stack := by
  induction n with
  | zero => exact List.Pairwise.nil
  | succ n ih =>
    have hle := Nat.le_of_succ_le hn
    rw [scanAt_succ (List.getElem?_eq_getElem hn)]
    exact (ih hle).step (placed_scanAt hle)

theorem stack_of_binary {op : BinaryOp} {t : BaseType} {k : ValueKey} {start : Nat}
    (h : (s.step (.binary op t) n).stack.head? = some ⟨some k,start⟩) :
    ∃ x y rest, s.stack = y :: x :: rest ∧ y.value.isSome = true ∧ x.start = start := by
  obtain ⟨hvalue,hstart⟩ := Entry.mk.inj (Option.some.inj h)
  obtain ⟨kx,hx,hk⟩ := Option.bind_eq_some_iff.mp hvalue
  obtain ⟨ky,hy,_⟩ := Option.map_eq_some_iff.mp hk
  cases hs : s.stack with
  | nil => simp [Scan.top,hs] at hy
  | cons y rest =>
    cases rest with
    | nil => simp [Scan.top,Scan.drop,hs] at hx
    | cons x rest =>
      simp only [Scan.top,Scan.drop,hs,List.drop_succ_cons,List.drop_zero,List.headD_cons] at hy hstart
      exact ⟨x,y,rest,rfl,Option.isSome_iff_exists.mpr ⟨ky,hy⟩,hstart⟩

theorem Repeat.Repeats.start_lt {x : Repeat} {k : ValueKey} (h : Repeat.Repeats code x k) :
    x.start + 2 ≤ x.stop := by
  obtain ⟨op,t,hop⟩ := h.binary
  have htop := h.top
  rw [scanAt_succ hop] at htop
  obtain ⟨left,right,rest,hstack,hright,hleft⟩ := stack_of_binary htop
  have hlayered := layered_scanAt (Nat.le_of_lt h.length)
  have hplaced := placed_scanAt (Nat.le_of_lt h.length)
  rw [hstack] at hlayered hplaced
  have hlt := (List.pairwise_cons.mp hlayered).1 left List.mem_cons_self hright
  have hstop := (hplaced.unbroken right List.mem_cons_self).1
  omega

end layered

/-- A piece of code when values are kept: an instruction that stays, an operation whose result is put
into a slot, or a stretch instead of which a slot is loaded. -/
inductive Piece
  | kept (i : Instr)
  | noted (op : BinaryOp) (operand : BaseType) (n : Slot)
  | recalled (stretch : Code) (n : Slot)

namespace Piece

def source : Piece → Code
  | kept i => [i]
  | noted op operand _ => [.binary op operand]
  | recalled stretch _ => stretch

def inserted : Piece → Code
  | kept _ => []
  | noted _ _ n => [.dup,.store (.slot n)]
  | recalled _ n => [.load (.slot n)]

def removed : Piece → Code
  | recalled stretch _ => stretch
  | _ => []

def target : Piece → Code
  | kept i => [i]
  | noted op operand n => .binary op operand :: inserted (noted op operand n)
  | recalled stretch n => inserted (recalled stretch n)

def noted? : Piece → Option Slot
  | noted _ _ n => some n
  | _ => none

def recalled? : Piece → Option (Code × Slot)
  | recalled stretch n => some (stretch,n)
  | _ => none

/-- A stretch that is replaced has at least three instructions and ends with a binary operation. -/
def Long : Piece → Prop
  | recalled stretch _ => 3 ≤ stretch.length ∧ ∃ op t, stretch.getLast? = some (.binary op t)
  | _ => True

section count

variable {ps : List Piece}

/-- Two instructions for every kept result, one for every load, and no less than three for every
stretch. -/
theorem length_inserted_removed (h : ∀ p ∈ ps, p.Long) :
    (ps.flatMap inserted).length = 2 * (ps.filterMap noted?).length + (ps.filterMap recalled?).length ∧
      3 * (ps.filterMap recalled?).length ≤ (ps.flatMap removed).length := by
  induction ps with
  | nil => exact ⟨rfl,Nat.le_refl _⟩
  | cons p ps ih =>
    obtain ⟨hinserted,hremoved⟩ := ih fun q hq => h q (List.mem_cons_of_mem p hq)
    have hp := h p List.mem_cons_self
    rw [List.flatMap_cons,List.flatMap_cons,List.length_append,List.length_append]
    cases p with
    | kept i =>
      simp only [List.filterMap_cons,inserted,removed,noted?,recalled?,List.length_nil]
      omega
    | noted op operand n =>
      simp only [List.filterMap_cons,inserted,removed,noted?,recalled?,List.length_cons,List.length_nil]
      omega
    | recalled stretch n =>
      have hlong : 3 ≤ stretch.length := hp.1
      simp only [List.filterMap_cons,inserted,removed,noted?,recalled?,List.length_cons,List.length_nil]
      omega

/-- What is inserted and what is removed make up the difference in length. -/
theorem length_target (ps : List Piece) :
    (ps.flatMap target).length + (ps.flatMap removed).length =
      (ps.flatMap source).length + (ps.flatMap inserted).length := by
  induction ps with
  | nil => rfl
  | cons p ps ih =>
    simp only [List.flatMap_cons,List.length_append]
    cases p <;> simp only [source,target,inserted,removed,List.length_cons,List.length_nil] <;> omega

/-- With every stretch that is replaced a binary operation is lost. -/
theorem countP_target (h : ∀ p ∈ ps, p.Long) :
    (ps.flatMap target).countP Instr.isBinary + (ps.filterMap recalled?).length ≤
      (ps.flatMap source).countP Instr.isBinary := by
  induction ps with
  | nil => exact Nat.le_refl _
  | cons p ps ih =>
    have hrest := ih fun q hq => h q (List.mem_cons_of_mem p hq)
    have hp := h p List.mem_cons_self
    rw [List.flatMap_cons,List.flatMap_cons,List.countP_append,List.countP_append]
    cases p with
    | kept i =>
      simp only [List.filterMap_cons,source,target,recalled?]
      omega
    | noted op operand n =>
      simp only [List.filterMap_cons,source,target,inserted,recalled?,List.countP_cons,List.countP_nil,
        Instr.isBinary,Bool.false_eq_true,if_true,if_false]
      omega
    | recalled stretch n =>
      obtain ⟨_,op,t,hlast⟩ := hp
      have hpos : 0 < stretch.countP Instr.isBinary :=
        List.countP_pos_iff.mpr ⟨_,List.mem_of_getLast? hlast,rfl⟩
      simp only [List.filterMap_cons,source,target,inserted,recalled?,List.countP_cons,List.countP_nil,
        Instr.isBinary,Bool.false_eq_true,if_false,List.length_cons]
      omega

end count

end Piece

def Repeat.stretch (x : Repeat) (code : Code) : Code :=
  (code.drop x.start).take (x.stop + 1 - x.start)

section stretch

variable {code : Code} {x : Repeat}

theorem Repeat.Repeats.long {k : ValueKey} (h : Repeat.Repeats code x k) (n : Slot) :
    (Piece.recalled (Repeat.stretch x code) n).Long := by
  have hlt := h.start_lt
  have hlength := h.length
  have hsize : (Repeat.stretch x code).length = x.stop + 1 - x.start := by
    rw [Repeat.stretch,List.length_take,List.length_drop]
    omega
  obtain ⟨op,t,hop⟩ := h.binary
  refine ⟨by omega,op,t,?_⟩
  rw [List.getLast?_eq_getElem?,hsize,Repeat.stretch,List.getElem?_take_of_lt (by omega),
    List.getElem?_drop,← hop]
  congr 1
  omega

theorem Repeat.stretch_append (h : x.start ≤ x.stop) :
    Repeat.stretch x code ++ code.drop (x.stop + 1) = code.drop x.start := by
  have hdrop := List.take_append_drop (x.stop + 1 - x.start) (code.drop x.start)
  rwa [List.drop_drop,Nat.add_sub_cancel' (by omega)] at hdrop

end stretch

end Reuse

namespace RoutineCode

open Reuse

/-- The code is cut into pieces. The stretches that are replaced are those that the pass counts, and
every kept result has a slot of its own, which is loaded somewhere. -/
structure Cut (r : RoutineCode) (ps : List Piece) : Prop where
  source : ps.flatMap Piece.source = r.code
  target : ps.flatMap Piece.target = r.reuseValues.routine.code
  recalled : ps.filterMap Piece.recalled? =
    r.reuseValues.replaced.map fun p => (Repeat.stretch p.1 r.code,p.2)
  distinct : (ps.filterMap Piece.noted?).Nodup
  loaded : ∀ n ∈ ps.filterMap Piece.noted?, ∃ p ∈ r.reuseValues.replaced, p.2 = n
  long : ∀ p ∈ ps, p.Long

section pieces

variable {r : RoutineCode} {pc : Nat}

theorem targets_drop {i : Instr} (hi : r.code[pc]? = some i) :
    Patch.targets (r.reusePatches.drop pc) =
      Reuse.replace (kept r.code) r.cache pc i ++ Patch.targets (r.reusePatches.drop (pc + 1)) := by
  obtain ⟨hlt,hget⟩ := List.getElem?_eq_some_iff.mp (getElem?_reusePatches hi)
  rw [List.drop_eq_getElem_cons hlt,hget,Patch.targets_cons]

theorem targets_inside {x : Repeat} (hx : x ∈ kept r.code) {n : Nat} (hlt : x.start < pc)
    (hpc : pc + n = x.stop + 1) :
    Patch.targets (r.reusePatches.drop pc) = Patch.targets (r.reusePatches.drop (x.stop + 1)) := by
  induction n generalizing pc with
  | zero => rw [← hpc,Nat.add_zero]
  | succ n ih =>
    obtain ⟨k,hk⟩ := repeats_of_kept hx
    have hlength := hk.length
    obtain ⟨m,hm⟩ := exists_lookup hx
    have hi := List.getElem?_eq_getElem (show pc < r.code.length by omega)
    rw [targets_drop hi,replace_inside hx (covers_iff.mpr (by omega)) hm,if_neg (Nat.ne_of_lt hlt)]
    exact ih (Nat.lt_succ_of_lt hlt) (by omega)

theorem targets_recalled {x : Repeat} (hx : x ∈ kept r.code) {n : Slot}
    (hn : r.cache.lookup x.first = some n) :
    Patch.targets (r.reusePatches.drop x.start) =
      .load (.slot n) :: Patch.targets (r.reusePatches.drop (x.stop + 1)) := by
  obtain ⟨k,hk⟩ := repeats_of_kept hx
  have hle := hk.start_le
  have hlength := hk.length
  have hi := List.getElem?_eq_getElem (show x.start < r.code.length by omega)
  rw [targets_drop hi,replace_inside hx (covers_iff.mpr ⟨Nat.le_refl _,hle⟩) hn,if_pos rfl,
    targets_inside hx (n := x.stop - x.start) (Nat.lt_succ_self _) (by omega)]
  rfl

/-- Outside the stretches an instruction stays, and its result may be kept. -/
theorem exists_piece_outside {i : Instr} (hi : r.code[pc]? = some i)
    (hout : (kept r.code).find? (Repeat.covers · pc) = none) :
    ∃ p : Piece, p.source = [i] ∧ p.target = Reuse.replace (kept r.code) r.cache pc i ∧
      p.recalled? = none ∧ p.noted? = r.cache.lookup pc ∧ p.Long := by
  rw [replace_outside hout]
  cases hl : r.cache.lookup pc with
  | none => exact ⟨.kept i,rfl,rfl,rfl,rfl,trivial⟩
  | some n =>
    obtain ⟨_,op,t,hop⟩ := kept_of_lookup hl
    obtain rfl := Option.some.inj (hi.symm.trans hop)
    exact ⟨.noted op t n,rfl,rfl,rfl,rfl,trivial⟩

def loads (r : RoutineCode) (xs : List Repeat) : List (Repeat × Slot) :=
  xs.filterMap fun x => (r.cache.lookup x.first).map (x,·)

theorem loads_kept (r : RoutineCode) : r.loads (kept r.code) = r.reuseValues.replaced := rfl

/-- A position divides the repeats into those that end before it and those that start there or later. -/
structure Parted (r : RoutineCode) (pc : Nat) (before after : List Repeat) : Prop where
  split : kept r.code = before ++ after
  passed : ∀ x ∈ before, x.stop < pc
  ahead : ∀ x ∈ after, pc ≤ x.start

section parted

variable {before after : List Repeat}

theorem Parted.mem_kept (h : r.Parted pc before after) {x : Repeat} (hx : x ∈ after) :
    x ∈ kept r.code :=
  h.split ▸ List.mem_append_right _ hx

theorem Parted.eq_nil (h : r.Parted pc before after) (hpc : r.code.length ≤ pc) : after = [] := by
  refine List.eq_nil_iff_forall_not_mem.mpr fun x hx => ?_
  obtain ⟨k,hk⟩ := repeats_of_kept (h.mem_kept hx)
  have hstart := h.ahead x hx
  have hle := hk.start_le
  have hlength := hk.length
  omega

theorem Parted.pairwise (h : r.Parted pc before after) :
    after.Pairwise fun x y => x.stop < y.start :=
  (List.pairwise_append.mp (h.split ▸ pairwise_kept)).2.1

theorem Parted.over {x : Repeat} (h : r.Parted x.start before (x :: after)) :
    r.Parted (x.stop + 1) (before ++ [x]) after := by
  obtain ⟨k,hk⟩ := repeats_of_kept (h.mem_kept List.mem_cons_self)
  refine ⟨by rw [h.split,List.append_assoc]; rfl,?_,(List.pairwise_cons.mp h.pairwise).1⟩
  refine List.forall_mem_append.mpr ⟨fun y hy => ?_,by simp⟩
  have hlt := h.passed y hy
  have hle := hk.start_le
  omega

theorem Parted.next (h : r.Parted pc before after) (hhead : ¬ ∃ x ∈ after.head?, x.start = pc) :
    r.Parted (pc + 1) before after := by
  refine ⟨h.split,fun x hx => Nat.lt_succ_of_lt (h.passed x hx),?_⟩
  cases after with
  | nil => simp
  | cons x rest =>
    have hne : x.start ≠ pc := fun he => hhead ⟨x,rfl,he⟩
    have hx := h.ahead x List.mem_cons_self
    obtain ⟨k,hk⟩ := repeats_of_kept (h.mem_kept List.mem_cons_self)
    have hle := hk.start_le
    refine List.forall_mem_cons.mpr ⟨by omega,fun y hy => ?_⟩
    have hlt := (List.pairwise_cons.mp h.pairwise).1 y hy
    omega

theorem Parted.outside (h : r.Parted pc before after) (hnext : r.Parted (pc + 1) before after) :
    (kept r.code).find? (Repeat.covers · pc) = none := by
  refine List.find?_eq_none.mpr fun x hx hcovers => ?_
  rw [covers_iff] at hcovers
  rcases List.mem_append.mp (h.split ▸ hx) with hx | hx
  · have hstop := h.passed x hx
    omega
  · have hstart := hnext.ahead x hx
    omega

end parted

/-- The code from a position on is cut into pieces; the given repeats are still to come. -/
structure CutFrom (r : RoutineCode) (pc : Nat) (after : List Repeat) (ps : List Piece) : Prop where
  source : ps.flatMap Piece.source = r.code.drop pc
  target : ps.flatMap Piece.target = Patch.targets (r.reusePatches.drop pc)
  recalled : ps.filterMap Piece.recalled? =
    (r.loads after).map fun p => (Repeat.stretch p.1 r.code,p.2)
  distinct : (ps.filterMap Piece.noted?).Nodup
  noted : ∀ m ∈ ps.filterMap Piece.noted?, ∃ f, pc ≤ f ∧ r.cache.lookup f = some m
  long : ∀ p ∈ ps, p.Long

section cutFrom

variable {after : List Repeat} {ps : List Piece}

theorem cutFrom_end (hpc : r.code.length ≤ pc) : r.CutFrom pc [] [] := by
  have hpatches : r.reusePatches.drop pc = [] :=
    List.drop_eq_nil_of_le (by simpa only [reusePatches,List.length_map,List.length_zipIdx] using hpc)
  refine ⟨?_,by rw [hpatches]; rfl,rfl,List.nodup_nil,by simp,by simp⟩
  rw [List.drop_eq_nil_of_le hpc]
  rfl

/-- The slots that results are kept in further on belong to later positions. -/
theorem CutFrom.not_mem_noted (h : r.CutFrom (pc + 1) after ps) {m : Slot}
    (hm : r.cache.lookup pc = some m) : m ∉ ps.filterMap Piece.noted? := by
  intro hmem
  obtain ⟨f,hf,hlookup⟩ := h.noted m hmem
  have hsame := lookup_inj hlookup hm
  omega

theorem CutFrom.cons_recalled {x : Repeat} (hx : x ∈ kept r.code)
    (h : r.CutFrom (x.stop + 1) after ps) : ∃ p, r.CutFrom x.start (x :: after) (p :: ps) := by
  obtain ⟨k,hk⟩ := repeats_of_kept hx
  obtain ⟨n,hn⟩ := exists_lookup hx
  have hle := hk.start_le
  refine ⟨.recalled (Repeat.stretch x r.code) n,?_,?_,?_,h.distinct,fun m hm => ?_,
    List.forall_mem_cons.mpr ⟨hk.long n,h.long⟩⟩
  · rw [List.flatMap_cons,h.source]
    exact Repeat.stretch_append hle
  · rw [List.flatMap_cons,h.target,targets_recalled hx hn]
    rfl
  · have hloads : r.loads (x :: after) = (x,n) :: r.loads after := by simp [loads,hn]
    rw [List.filterMap_cons,hloads,List.map_cons,← h.recalled]
    rfl
  · obtain ⟨f,hf,hlookup⟩ := h.noted m hm
    exact ⟨f,by omega,hlookup⟩

theorem CutFrom.cons_outside {i : Instr} (hi : r.code[pc]? = some i)
    (hout : (kept r.code).find? (Repeat.covers · pc) = none) (h : r.CutFrom (pc + 1) after ps) :
    ∃ p, r.CutFrom pc after (p :: ps) := by
  obtain ⟨p,hsource,htarget,hrecalled,hnoted,hlong⟩ := exists_piece_outside hi hout
  have hlater : ∀ m ∈ ps.filterMap Piece.noted?, ∃ f, pc ≤ f ∧ r.cache.lookup f = some m := by
    intro m hm
    obtain ⟨f,hf,hlookup⟩ := h.noted m hm
    exact ⟨f,by omega,hlookup⟩
  refine ⟨p,?_,?_,?_,?_,?_,List.forall_mem_cons.mpr ⟨hlong,h.long⟩⟩
  · obtain ⟨hlt,rfl⟩ := List.getElem?_eq_some_iff.mp hi
    rw [List.flatMap_cons,hsource,h.source,List.singleton_append,List.getElem_cons_drop]
  · rw [List.flatMap_cons,htarget,h.target,targets_drop hi]
  · rw [List.filterMap_cons,hrecalled]
    exact h.recalled
  · rw [List.filterMap_cons,hnoted]
    cases hl : r.cache.lookup pc with
    | none => exact h.distinct
    | some m => exact List.nodup_cons.mpr ⟨h.not_mem_noted hl,h.distinct⟩
  · rw [List.filterMap_cons,hnoted]
    cases hl : r.cache.lookup pc with
    | none => exact hlater
    | some m => exact List.forall_mem_cons.mpr ⟨⟨pc,Nat.le_refl _,hl⟩,hlater⟩

end cutFrom

/-- The induction goes from the end of the code to its beginning, over a stretch in one go. -/
theorem exists_cutFrom (pc n : Nat) (before after : List Repeat) (hpc : pc + n = r.code.length)
    (h : r.Parted pc before after) : ∃ ps, r.CutFrom pc after ps := by
  induction n using Nat.strongRecOn generalizing pc before after with
  | ind n ih =>
    rcases Nat.eq_zero_or_pos n with rfl | hpos
    · obtain rfl := h.eq_nil (Nat.le_of_eq hpc.symm)
      exact ⟨[],cutFrom_end (Nat.le_of_eq hpc.symm)⟩
    · by_cases hhead : ∃ x ∈ after.head?, x.start = pc
      · obtain ⟨x,hx,rfl⟩ := hhead
        obtain ⟨rest,rfl⟩ := List.head?_eq_some_iff.mp hx
        have hkept := h.mem_kept List.mem_cons_self
        obtain ⟨k,hk⟩ := repeats_of_kept hkept
        have hle := hk.start_le
        have hlength := hk.length
        obtain ⟨ps,hps⟩ := ih (r.code.length - (x.stop + 1)) (by omega) _ _ rest (by omega) h.over
        obtain ⟨p,hp⟩ := hps.cons_recalled hkept
        exact ⟨p :: ps,hp⟩
      · have hnext := h.next hhead
        obtain ⟨ps,hps⟩ := ih (n - 1) (by omega) _ before after (by omega) hnext
        have hi := List.getElem?_eq_getElem (show pc < r.code.length by omega)
        obtain ⟨p,hp⟩ := hps.cons_outside hi (h.outside hnext)
        exact ⟨p :: ps,hp⟩

theorem exists_cut (r : RoutineCode) : ∃ ps, r.Cut ps := by
  obtain ⟨ps,h⟩ := exists_cutFrom (r := r) 0 _ [] _ (Nat.zero_add _)
    ⟨rfl,by simp,fun x _ => Nat.zero_le x.start⟩
  refine ⟨ps,h.source,?_,h.recalled,h.distinct,fun n hn => ?_,h.long⟩
  · rw [h.target,List.drop_zero,targets_reusePatches]
  · obtain ⟨f,_,hlookup⟩ := h.noted n hn
    obtain ⟨⟨x,hx,rfl⟩,_⟩ := kept_of_lookup hlookup
    rw [← loads_kept]
    exact ⟨(x,n),List.mem_filterMap.mpr ⟨x,hx,by rw [hlookup]; rfl⟩,rfl⟩

end pieces

section cut

variable {r : RoutineCode} {ps : List Piece}

theorem Cut.length_recalled (h : r.Cut ps) :
    (ps.filterMap Piece.recalled?).length = r.reuseValues.replaced.length := by
  rw [h.recalled,List.length_map]

theorem Cut.length_noted (h : r.Cut ps) :
    (ps.filterMap Piece.noted?).length ≤ r.reuseValues.replaced.length := by
  have hsub : ps.filterMap Piece.noted? ⊆ r.reuseValues.replaced.map Prod.snd :=
    fun n hn => List.mem_map.mpr (h.loaded n hn)
  have hle := (List.subperm_of_subset h.distinct hsub).length_le
  rwa [List.length_map] at hle

theorem Cut.length_inserted (h : r.Cut ps) :
    (ps.flatMap Piece.inserted).length ≤ (ps.flatMap Piece.removed).length := by
  obtain ⟨hinserted,hremoved⟩ := Piece.length_inserted_removed h.long
  have hnoted := h.length_noted
  rw [h.length_recalled] at hinserted hremoved
  omega

theorem length_reuse (r : RoutineCode) : r.reuseValues.routine.code.length ≤ r.code.length := by
  obtain ⟨ps,h⟩ := r.exists_cut
  have htarget := Piece.length_target ps
  have hinserted := h.length_inserted
  rw [h.source,h.target] at htarget
  omega

theorem Cut.countP_binary (h : r.Cut ps) :
    r.reuseValues.routine.code.countP Instr.isBinary + r.reuseValues.replaced.length ≤
      r.code.countP Instr.isBinary := by
  have hcount := Piece.countP_target h.long
  rwa [h.source,h.target,h.length_recalled] at hcount

end cut

theorem length_insertPosition (n : Nat) (xs : List Nat) :
    (insertPosition n xs).length ≤ xs.length + 1 := by
  induction xs with
  | nil => exact Nat.le_refl _
  | cons x xs ih =>
    rw [insertPosition]
    split
    · exact Nat.le_refl _
    · split
      · exact Nat.le_succ _
      · exact Nat.succ_le_succ ih

theorem length_sources_le (code : Code) (xs : List Repeat) :
    (Reuse.sources code xs).length ≤ xs.length := by
  have hsorted : ∀ ns : List Nat, (ns.foldr insertPosition []).length ≤ ns.length := by
    intro ns
    induction ns with
    | nil => exact Nat.le_refl _
    | cons n ns ih => exact Nat.le_trans (length_insertPosition n _) (Nat.succ_le_succ ih)
  refine Nat.le_trans (List.length_filterMap_le _ _) ?_
  simpa using hsorted (xs.map Repeat.first)

theorem length_replaced (r : RoutineCode) : r.reuseValues.replaced.length = (kept r.code).length := by
  rw [← loads_kept,loads,List.length_filterMap_eq_countP,List.countP_eq_length]
  intro x hx
  obtain ⟨n,hn⟩ := exists_lookup hx
  rw [hn]
  rfl

theorem length_frame_reuse (r : RoutineCode) :
    r.reuseValues.routine.frame.length ≤ r.frame.length + r.reuseValues.replaced.length := by
  rw [length_replaced]
  refine Nat.le_trans (Nat.le_of_eq (length_temps r.frame _)) ?_
  exact Nat.add_le_add_left (length_sources_le r.code (kept r.code)) _

end RoutineCode

/-- No setting of the passes makes the code of a routine longer. Keeping values cuts the code into
pieces, inserts no more instructions than it removes and replaces exactly the stretches that it
counts; it adds at most as many slots behind those of the frame, and takes away at least as many binary
operations. -/
theorem RoutineCode.length_optimize_le (r : RoutineCode) :
    (∀ p : Passes, (p.optimize r).code.length ≤ r.code.length) ∧
    (∃ ps, r.Cut ps ∧ (ps.flatMap Reuse.Piece.inserted).length ≤ (ps.flatMap Reuse.Piece.removed).length ∧
      (ps.filterMap Reuse.Piece.recalled?).length = r.reuseValues.replaced.length) ∧
    r.frame <+: r.reuseValues.routine.frame ∧
    r.reuseValues.routine.frame.length ≤ r.frame.length + r.reuseValues.replaced.length ∧
    r.reuseValues.routine.code.countP Instr.isBinary + r.reuseValues.replaced.length ≤
      r.code.countP Instr.isBinary := by
  obtain ⟨ps,hcut⟩ := r.exists_cut
  refine ⟨fun p => ?_,⟨ps,hcut,hcut.length_inserted,hcut.length_recalled⟩,
    prefix_temps r.frame _,r.length_frame_reuse,hcut.countP_binary⟩
  have hshared : (p.shared r).code.length = r.code.length := by
    unfold Passes.shared
    split
    · exact List.length_map _
    · rfl
  have hreused : (p.reused r).code.length ≤ (p.shared r).code.length := by
    unfold Passes.reused
    split
    · exact length_reuse _
    · exact Nat.le_refl _
  rw [← hshared]
  refine Nat.le_trans ?_ hreused
  unfold Passes.optimize
  simp only
  split
  · exact (Window.loop_passes (Nat.le_refl _)).length_le
  · exact Nat.le_refl _

end StackCompiler
