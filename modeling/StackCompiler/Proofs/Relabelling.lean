import Mathlib.Logic.Function.Basic
import StackCompiler.Optimize.Passes

/-! Code under other label numbers.
Labels only tell where branches lead. No pass compares them except for equality, so a pass over code
whose labels were renumbered, different labels differently, gives the renumbered result. -/
namespace StackCompiler

def Instr.relabel (f : Label → Label) : Instr → Instr
  | label l => label (f l)
  | branch l => branch (f l)
  | branchIf flag l => branchIf flag (f l)
  | i => i

namespace Instr

variable (f : Label → Label) (i : Instr)

@[simp] theorem slot?_relabel : (i.relabel f).slot? = i.slot? := by cases i <;> rfl
@[simp] theorem defined?_relabel : (i.relabel f).defined? = i.defined? := by cases i <;> rfl
@[simp] theorem used?_relabel : (i.relabel f).used? = i.used? := by cases i <;> rfl
@[simp] theorem endsFlow_relabel : (i.relabel f).endsFlow = i.endsFlow := by cases i <;> rfl
@[simp] theorem isLabel_relabel : Window.isLabel (i.relabel f) = Window.isLabel i := by
  cases i <;> rfl

theorem renumber_relabel (g : Slot → Slot) :
    (i.relabel f).renumber g = (i.renumber g).relabel f := by
  cases i <;> rfl

theorem relabel_beq_label {f : Label → Label} (hf : Function.Injective f) (i : Instr) (l : Label) :
    (i.relabel f == .label (f l)) = (i == .label l) := by
  cases i with
  | label m =>
    rw [Bool.eq_iff_iff,beq_iff_eq,beq_iff_eq,relabel,label.injEq,label.injEq]
    exact hf.eq_iff
  | _ => rfl

def number? : Instr → Option Label
  | label l | branch l | branchIf _ l => some l
  | _ => none

theorem relabel_relabel (f g : Label → Label) (i : Instr) :
    (i.relabel f).relabel g = i.relabel (g ∘ f) := by
  cases i <;> rfl

theorem relabel_eq_self {f : Label → Label} {i : Instr} (h : ∀ l, i.number? = some l → f l = l) :
    i.relabel f = i := by
  cases i with
  | label l | branch l | branchIf _ l => rw [relabel,h l rfl]
  | _ => rfl

end Instr

def Code.relabel (f : Label → Label) (code : Code) : Code := code.map (Instr.relabel f)

namespace Code

variable (f : Label → Label)

@[simp] theorem relabel_nil : Code.relabel f [] = [] := rfl

@[simp] theorem relabel_cons (i : Instr) (code : Code) :
    Code.relabel f (i :: code) = i.relabel f :: Code.relabel f code := rfl

@[simp] theorem relabel_append (xs ys : Code) :
    Code.relabel f (xs ++ ys) = Code.relabel f xs ++ Code.relabel f ys :=
  List.map_append

@[simp] theorem length_relabel (code : Code) : (Code.relabel f code).length = code.length :=
  List.length_map _

theorem relabel_flatten (xs : List Code) :
    Code.relabel f xs.flatten = (xs.map (Code.relabel f)).flatten :=
  List.map_flatten

theorem zipIdx_relabel (code : Code) :
    (Code.relabel f code).zipIdx = code.zipIdx.map (Prod.map (Instr.relabel f) id) :=
  List.zipIdx_map ..

theorem zip_relabel {α : Type} (code : Code) (xs : List α) :
    (Code.relabel f code).zip xs = (code.zip xs).map (Prod.map (Instr.relabel f) id) :=
  List.zip_map_left ..

theorem relabel_eq_self {f : Label → Label} {code : Code}
    (h : ∀ i ∈ code, ∀ l, i.number? = some l → f l = l) : Code.relabel f code = code := by
  rw [Code.relabel,List.map_congr_left fun i hi => Instr.relabel_eq_self (h i hi),List.map_id']

theorem exists_bound (code : Code) : ∃ n : Nat, ∀ i ∈ code, ∀ l : Nat, i.number? = some l → l < n := by
  induction code with
  | nil => exact ⟨0,by simp⟩
  | cons i rest ih =>
    obtain ⟨n,hn⟩ := ih
    refine ⟨max n (i.number?.getD 0 + 1),fun j hj l hl => ?_⟩
    rcases List.mem_cons.mp hj with rfl | hj
    · rw [hl,Option.getD_some]
      exact Nat.lt_of_lt_of_le (Nat.lt_succ_self l) (Nat.le_max_right _ _)
    · exact Nat.lt_of_lt_of_le (hn j hj l hl) (Nat.le_max_left _ _)

end Code

/-- Takes `k` off the numbers from `k` to `n + k`, and moves all others out of the way. -/
def takeOff (k n l : Nat) : Nat := if k ≤ l ∧ l < n + k then l - k else l + n

theorem takeOff_injective (k n : Nat) : Function.Injective (takeOff k n) := by
  intro a b h
  unfold takeOff at h
  split at h <;> split at h <;> omega

/-- Code whose numbers were made higher comes back under other numbers, different ones differently. -/
theorem Code.exists_relabel_eq (k : Nat) (code : Code) :
    ∃ f, Function.Injective f ∧ Code.relabel f (Code.relabel (· + k) code) = code := by
  obtain ⟨n,hn⟩ := Code.exists_bound code
  refine ⟨takeOff k n,takeOff_injective k n,?_⟩
  have htwice : Code.relabel (takeOff k n) (Code.relabel (· + k) code) =
      Code.relabel (takeOff k n ∘ (· + k)) code := by
    simp only [Code.relabel,List.map_map]
    exact List.map_congr_left fun i _ => i.relabel_relabel _ _
  rw [htwice]
  apply Code.relabel_eq_self
  intro i hi l hl
  have hlt : l < n := hn i hi l hl
  have hback : ∀ m : Nat, m < n → takeOff k n (m + k) = m := by
    intro m hm
    unfold takeOff
    split <;> omega
  exact hback l hlt

def RoutineCode.relabel (f : Label → Label) (r : RoutineCode) : RoutineCode :=
  { r with code := Code.relabel f r.code }

namespace Liveness

variable {f : Label → Label}

theorem atLabel_relabel (hf : Function.Injective f) (code : Code) (live : List SlotSet) (l : Label) :
    atLabel (Code.relabel f code) live (f l) = atLabel code live l := by
  unfold atLabel
  rw [Code.zip_relabel,← List.map_reverse,List.find?_map]
  have hsame : ((fun x : Instr × SlotSet => x.1 == .label (f l)) ∘ Prod.map (Instr.relabel f) id) =
      fun x => x.1 == .label l := by
    funext x
    exact Instr.relabel_beq_label hf x.1 l
  rw [hsame]
  cases (code.zip live).reverse.find? (fun x => x.1 == .label l) <;> rfl

theorem sweep_relabel {labels labels' : Label → SlotSet} (h : ∀ l, labels' (f l) = labels l)
    (code : Code) : sweep labels' (Code.relabel f code) = sweep labels code := by
  induction code with
  | nil => rfl
  | cons i rest ih =>
    have hafter : ∀ next, after labels' next (i.relabel f) = after labels next i := by
      intro next
      cases i with
      | branch l => exact h l
      | branchIf flag l => simp only [Instr.relabel,after,h]
      | _ => rfl
    rw [Code.relabel_cons,sweep,sweep,ih,hafter,before,before,Instr.defined?_relabel,Instr.used?_relabel]

theorem round_relabel (hf : Function.Injective f) (code : Code) (live : List SlotSet) :
    round (Code.relabel f code) live = round code live :=
  sweep_relabel (atLabel_relabel hf code live) code

theorem settle_relabel (hf : Function.Injective f) (code : Code) (n : Nat) (live : List SlotSet) :
    settle (Code.relabel f code) n live = settle code n live := by
  induction n generalizing live with
  | zero => rfl
  | succ n ih => simp only [settle,round_relabel hf,ih]

end Liveness

section passes

variable {f : Label → Label} (hf : Function.Injective f)

include hf

theorem Code.liveness_relabel (code : Code) : (Code.relabel f code).liveness = code.liveness := by
  have hempty : ((Code.relabel f code).map fun _ => ([] : SlotSet)) = code.map fun _ => [] := by
    rw [Code.relabel,List.map_map]
    rfl
  rw [Code.liveness,Code.liveness,Liveness.settle_relabel hf,hempty,Code.length_relabel]

theorem RoutineCode.intervals_relabel (r : RoutineCode) : (r.relabel f).intervals = r.intervals := by
  have hpositions : ∀ s live, Interval.positions s (Code.relabel f r.code) live =
      Interval.positions s r.code live := by
    intro s live
    have hoccupied : ((fun x : (Instr × SlotSet) × Nat => Interval.occupied s x.1.1 x.1.2) ∘
        Prod.map (Prod.map (Instr.relabel f) id) id) = fun x => Interval.occupied s x.1.1 x.1.2 := by
      funext x
      simp [Interval.occupied]
    unfold Interval.positions
    rw [Code.zip_relabel,List.zipIdx_map,List.filter_map,List.map_map,hoccupied]
    rfl
  unfold RoutineCode.intervals Interval.of?
  simp only [RoutineCode.relabel,Code.liveness_relabel hf,hpositions]

theorem RoutineCode.shareSlots_relabel (r : RoutineCode) :
    (r.relabel f).shareSlots.routine = r.shareSlots.routine.relabel f := by
  have hallocate : Sharing.allocate (r.relabel f) = Sharing.allocate r := by
    unfold Sharing.allocate
    rw [r.intervals_relabel hf]
    rfl
  unfold RoutineCode.shareSlots
  simp only [hallocate]
  simp only [RoutineCode.relabel,Code.relabel,List.map_map]
  congr 2
  funext i
  exact i.renumber_relabel f _

end passes

namespace Reuse

variable (f : Label → Label)

theorem step_relabel (s : Scan) (i : Instr) (position : Nat) :
    s.step (i.relabel f) position = s.step i position := by
  cases i <;> rfl

theorem kept_relabel (code : Code) : kept (Code.relabel f code) = kept code := by
  have hrepeats : repeats (Code.relabel f code) = repeats code := by
    unfold repeats
    rw [Code.zipIdx_relabel,List.foldl_map]
    simp only [Prod.map_fst,Prod.map_snd,step_relabel,id_eq]
  rw [kept,kept,hrepeats]

theorem sources_relabel (code : Code) (xs : List Repeat) :
    sources (Code.relabel f code) xs = sources code xs := by
  unfold sources
  congr 1
  funext first
  rw [Code.relabel,List.getElem?_map]
  cases code[first]? with
  | none => rfl
  | some i => cases i <;> rfl

theorem replace_relabel (xs : List Repeat) (slots : List (Nat × Slot)) (position : Nat) (i : Instr) :
    replace xs slots position (i.relabel f) = Code.relabel f (replace xs slots position i) := by
  unfold replace
  cases xs.find? (Repeat.covers · position) with
  | some x =>
    simp only
    split
    · cases slots.lookup x.first <;> rfl
    · rfl
  | none => cases slots.lookup position <;> rfl

end Reuse

theorem RoutineCode.reuseValues_relabel (f : Label → Label) (r : RoutineCode) :
    (r.relabel f).reuseValues.routine = r.reuseValues.routine.relabel f := by
  unfold RoutineCode.reuseValues
  simp only [RoutineCode.relabel,Reuse.kept_relabel,Reuse.sources_relabel,Code.zipIdx_relabel,
    List.map_map,Code.relabel_flatten]
  congr 3
  funext x
  exact Reuse.replace_relabel f _ _ _ _

namespace Window

variable {f : Label → Label}

theorem rule?_relabel (hf : Function.Injective f) (code : Code) :
    rule? (Code.relabel f code) = (rule? code).map (Prod.map id (Code.relabel f)) := by
  rcases code with _ | ⟨i,_ | ⟨j,rest⟩⟩
  · rfl
  · cases i <;> rfl
  · cases i with
    | const v =>
      cases j with
      | const w =>
        cases rest with
        | nil => cases v <;> rfl
        | cons k rest =>
          cases k with
          | binary op operand =>
            simp only [Code.relabel_cons,Instr.relabel,rule?,Option.map_map]
            rfl
          | _ => cases v <;> rfl
      | convert => cases v <;> rfl
      | unary op operand =>
        cases v <;> simp only [Code.relabel_cons,Instr.relabel,rule?,Option.map_map] <;> rfl
      | branchIf flag l =>
        cases v with
        | boolean b =>
          simp only [Code.relabel_cons,Instr.relabel,rule?,Option.map_some,Prod.map_apply,id_eq]
          split <;> rfl
        | _ => rfl
      | _ => cases v <;> rfl
    | load p =>
      cases j with
      | store q =>
        simp only [Code.relabel_cons,Instr.relabel,rule?]
        split <;> rfl
      | _ => rfl
    | store p =>
      cases j with
      | load q =>
        simp only [Code.relabel_cons,Instr.relabel,rule?]
        split <;> rfl
      | _ => rfl
    | branch l =>
      cases j with
      | label m =>
        simp only [Code.relabel_cons,Instr.relabel,rule?,hf.eq_iff]
        split <;> rfl
      | _ => rfl
    | branchIf flag l =>
      cases j with
      | label m =>
        simp only [Code.relabel_cons,Instr.relabel,rule?,hf.eq_iff]
        split <;> rfl
      | _ => rfl
    | _ => cases j <;> rfl

def Segment.relabel (f : Label → Label) : Segment → Segment
  | kept i => kept (i.relabel f)
  | replaced window replacement => replaced (Code.relabel f window) (Code.relabel f replacement)

theorem segments_relabel (hf : Function.Injective f) (n : Nat) (code : Code) :
    segments n (Code.relabel f code) = (segments n code).map (Segment.relabel f) := by
  induction code generalizing n with
  | nil => rfl
  | cons i rest ih =>
    cases n with
    | succ n => exact ih n
    | zero =>
      have hrule := rule?_relabel hf (i :: rest)
      rw [Code.relabel_cons] at hrule ⊢
      rw [segments,segments,hrule]
      cases rule? (i :: rest) with
      | none => rw [List.map_cons,← ih]; rfl
      | some r =>
        rw [List.map_cons,← ih,Segment.relabel]
        simp [Code.relabel,List.map_take]

theorem reachable_relabel (live : Bool) (code : Code) :
    reachable live (Code.relabel f code) = Code.relabel f (reachable live code) := by
  induction code generalizing live with
  | nil => rfl
  | cons i rest ih =>
    rw [Code.relabel_cons,reachable,reachable,Instr.isLabel_relabel,Instr.endsFlow_relabel,ih,ih]
    split <;> rfl

theorem code_passes_relabel (hf : Function.Injective f) (n : Nat) (code : Code) :
    (passes n (Code.relabel f code)).code = Code.relabel f (passes n code).code := by
  induction n generalizing code with
  | zero => rfl
  | succ n ih =>
    have hpieces := segments_relabel hf 0 code
    have hreplaced : ((segments 0 (Code.relabel f code)).filterMap Segment.replacement?).length =
        ((segments 0 code).filterMap Segment.replacement?).length := by
      rw [hpieces,List.filterMap_map,List.length_filterMap_eq_countP,List.length_filterMap_eq_countP]
      congr 1
      funext x
      cases x <;> rfl
    have hjoined : ((segments 0 (Code.relabel f code)).map Segment.code).flatten =
        Code.relabel f ((segments 0 code).map Segment.code).flatten := by
      rw [hpieces,Code.relabel_flatten,List.map_map,List.map_map]
      congr 2
      funext x
      cases x <;> rfl
    simp only [passes,hreplaced,hjoined,reachable_relabel,Code.length_relabel]
    split
    · rfl
    · exact ih _

theorem weight_relabel (code : Code) : weight (Code.relabel f code) = weight code := by
  unfold weight
  rw [Code.length_relabel,Code.relabel,List.countP_map]
  congr 2
  funext i
  cases i <;> rfl

end Window

/-- Optimizing code under other label numbers gives the optimized code under these numbers. -/
theorem Passes.optimize_relabel {f : Label → Label} (hf : Function.Injective f) (p : Passes)
    (r : RoutineCode) : p.optimize (r.relabel f) = (p.optimize r).relabel f := by
  have hshared : p.shared (r.relabel f) = (p.shared r).relabel f := by
    unfold Passes.shared
    split
    · exact r.shareSlots_relabel hf
    · rfl
  have hreused : p.reused (r.relabel f) = (p.reused r).relabel f := by
    unfold Passes.reused
    rw [hshared]
    split
    · exact RoutineCode.reuseValues_relabel f _
    · rfl
  unfold Passes.optimize
  rw [hreused]
  simp only
  split
  · unfold Code.simplify
    rw [RoutineCode.relabel,Window.weight_relabel,Window.code_passes_relabel hf]
    rfl
  · rfl

end StackCompiler
