import Mathlib.Data.List.Chain
import StackCompiler.Proofs.Windows

/-! Replacing windows comes to an end, and nothing is left to replace.
Two rules do not make code shorter, but each of them takes away a load or a conditional branch. So
the weight falls by at least the number of changes in every pass, and the allowed number of passes
is never used up before one changes nothing. Where a pass changes nothing no rule matches, and only
labels follow what ends the flow of control. -/
namespace StackCompiler

namespace Window

/-- No rule matches anywhere, and nothing but a label follows directly on a branch or a return. -/
structure Normal (code : Code) : Prop where
  unmatched : ∀ n, rule? (code.drop n) = none
  entered : code.IsChain fun i j => i.endsFlow = true → isLabel j = true

theorem Rule.rule?_eq {rest window replacement : Code} (h : Rule rest window replacement) :
    rule? (window ++ rest) = some (window.length,replacement) := by
  cases h with
  | binary h | unary h => simp [rule?,h]
  | passed h => simp [rule?,h]
  | @branch l h | @branchIf flag l h =>
    obtain ⟨rest,rfl⟩ := List.head?_eq_some_iff.mp h
    simp [rule?]
  | _ => simp [rule?]

theorem Normal.not_rule {code : Code} (h : Normal code) (n : Nat) :
    ¬ ∃ window after replacement, code.drop n = window ++ after ∧ Rule after window replacement := by
  rintro ⟨window,after,replacement,hsplit,hrule⟩
  have hnone := h.unmatched n
  rw [hsplit,hrule.rule?_eq] at hnone
  cases hnone

theorem segments_of_unmatched {code : Code} (h : ∀ n, rule? (code.drop n) = none) :
    segments 0 code = code.map .kept := by
  induction code with
  | nil => rfl
  | cons i rest ih =>
    have hnone : rule? (i :: rest) = none := h 0
    rw [segments,hnone,List.map_cons,ih fun n => h (n + 1)]

theorem unmatched_of_segments {code : Code}
    (h : (segments 0 code).filterMap Segment.replacement? = []) (n : Nat) :
    rule? (code.drop n) = none := by
  induction code generalizing n with
  | nil => simp [rule?]
  | cons i rest ih =>
    rw [segments] at h
    split at h
    · simp [Segment.replacement?] at h
    · next hnone =>
      cases n with
      | zero => exact hnone
      | succ n => exact ih (by simpa [Segment.replacement?] using h) n

/-- Nothing is dropped exactly where control enters at labels only. -/
theorem reachable_eq_iff {live : Bool} {code : Code} : reachable live code = code ↔
    (∀ j ∈ code.head?, live = false → isLabel j = true) ∧
      code.IsChain fun i j => i.endsFlow = true → isLabel j = true := by
  induction code generalizing live with
  | nil => simp [reachable]
  | cons i rest ih =>
    rw [reachable,List.isChain_cons]
    split
    · next hkeep =>
      have hhead : live = false → isLabel i = true := by
        rintro rfl
        simpa using hkeep
      simpa [ih] using fun _ _ => hhead
    · next hdrop =>
      have hlen := length_reachable_le false rest
      constructor
      · intro heq
        rw [heq,List.length_cons] at hlen
        omega
      · rintro ⟨hhead,_⟩
        cases live with
        | true => simp at hdrop
        | false => simp [hhead i rfl rfl] at hdrop

def joined (code : Code) : Code := ((segments 0 code).map Segment.code).flatten

/-- One pass over the windows, after which what control cannot reach is dropped. -/
def pass (code : Code) : Code := reachable true (joined code)

def replaced (code : Code) : List (Code × Code) := (segments 0 code).filterMap Segment.replacement?

def changed (code : Code) : Nat := (replaced code).length + ((joined code).length - (pass code).length)

theorem joined_of_unmatched {code : Code} (h : ∀ n, rule? (code.drop n) = none) :
    joined code = code := by
  rw [joined,segments_of_unmatched h,List.map_map,← List.flatMap_def]
  exact List.flatMap_singleton' code

theorem Normal.unchanged {code : Code} (h : Normal code) : changed code = 0 ∧ pass code = code := by
  have hjoined := joined_of_unmatched h.unmatched
  have hreplaced : replaced code = [] := by
    simp [replaced,segments_of_unmatched h.unmatched,Segment.replacement?]
  have hpass : pass code = code := by
    rw [pass,hjoined,reachable_eq_iff]
    exact ⟨by simp,h.entered⟩
  exact ⟨by simp [changed,hreplaced,hpass,hjoined],hpass⟩

theorem reachable_sublist (live : Bool) (code : Code) : (reachable live code).Sublist code := by
  induction code generalizing live with
  | nil => exact .slnil
  | cons i rest ih =>
    rw [reachable]
    split
    · exact (ih _).cons_cons i
    · exact (ih _).cons i

theorem normal_of_unchanged {code : Code} (h : changed code = 0) : Normal code := by
  obtain ⟨hreplaced,hdropped⟩ := Nat.add_eq_zero_iff.mp h
  have hunmatched := unmatched_of_segments (List.length_eq_zero_iff.mp hreplaced)
  rw [pass,joined_of_unmatched hunmatched] at hdropped
  have hpass := (reachable_sublist true code).eq_of_length_le (Nat.sub_eq_zero_iff_le.mp hdropped)
  exact ⟨hunmatched,(reachable_eq_iff.mp hpass).2⟩

theorem weight_append (a b : Code) : weight (a ++ b) = weight a + weight b := by
  simp only [weight,List.length_append,List.countP_append]
  omega

theorem Rule.weight_lt {rest window replacement : Code} (h : Rule rest window replacement) :
    weight replacement < weight window := by
  cases h <;> simp [weight]

theorem weight_segments {xs : List Segment}
    (h : ∀ window replacement, .replaced window replacement ∈ xs →
      weight replacement < weight window) :
    (xs.filterMap Segment.replacement?).length + weight (xs.map Segment.code).flatten ≤
      weight (xs.flatMap Segment.source) := by
  induction xs with
  | nil => exact Nat.le_refl _
  | cons x xs ih =>
    have hrest := ih fun window replacement hmem => h window replacement (List.mem_cons_of_mem x hmem)
    rw [List.map_cons,List.flatten_cons,List.flatMap_cons,weight_append,weight_append]
    cases x with
    | kept i =>
      simp only [List.filterMap_cons,Segment.replacement?,Segment.code,Segment.source]
      omega
    | replaced window replacement =>
      have hlt := h window replacement List.mem_cons_self
      simp only [List.filterMap_cons,Segment.replacement?,Segment.code,Segment.source,
        List.length_cons]
      omega

theorem weight_joined (code : Code) : (replaced code).length + weight (joined code) ≤ weight code := by
  have hrules : ∀ window replacement, .replaced window replacement ∈ segments 0 code →
      weight replacement < weight window := by
    intro window replacement hmem
    obtain ⟨before,after,hsplit⟩ := List.append_of_mem hmem
    exact (rule_of_segments hsplit).weight_lt
  have hle := weight_segments hrules
  rwa [flatMap_source_segments,List.drop_zero] at hle

theorem weight_sublist {a b : Code} (h : a.Sublist b) : b.length + weight a ≤ weight b + a.length := by
  have hcons : ∀ (i : Instr) (code : Code), weight (i :: code) = weight [i] + weight code :=
    fun i code => weight_append [i] code
  induction h with
  | slnil => exact Nat.le_refl _
  | cons i _ ih =>
    have hi : 1 ≤ weight [i] := Nat.le_add_right _ _
    rw [hcons i,List.length_cons]
    omega
  | @cons_cons a b i _ ih =>
    rw [hcons i a,hcons i b,List.length_cons,List.length_cons]
    omega

theorem changed_add_weight_pass (code : Code) : changed code + weight (pass code) ≤ weight code := by
  have hjoined := weight_joined code
  have hreach := weight_sublist (reachable_sublist true (joined code))
  have hlen := length_reachable_le true (joined code)
  rw [changed]
  simp only [pass] at *
  omega

/-- Passes without any bound on their number, up to the first one that changes nothing. -/
inductive Loop : Code → Simplified → Prop
  | done {code : Code} (h : changed code = 0) : Loop code ⟨pass code,0,[]⟩
  | again {code : Code} {rest : Simplified} (h : changed code ≠ 0) (hrest : Loop (pass code) rest) :
    Loop code ⟨rest.code,changed code + rest.changes,replaced code ++ rest.replacements⟩

theorem Loop.normal {code : Code} {out : Simplified} (h : Loop code out) : Normal out.code := by
  induction h with
  | done h =>
    have hnormal := normal_of_unchanged h
    rwa [hnormal.unchanged.2]
  | again _ _ ih => exact ih

theorem Loop.changes_add_weight {code : Code} {out : Simplified} (h : Loop code out) :
    out.changes + weight out.code ≤ weight code := by
  induction h with
  | @done code h =>
    rw [(normal_of_unchanged h).unchanged.2]
    exact Nat.le_of_eq (Nat.zero_add _)
  | @again code rest _ _ ih =>
    have hpass := changed_add_weight_pass code
    simp only at *
    omega

theorem passes_succ (n : Nat) (code : Code) : passes (n + 1) code =
    if changed code = 0 then ⟨code,0,[]⟩
    else ⟨(passes n (pass code)).code,changed code + (passes n (pass code)).changes,
      replaced code ++ (passes n (pass code)).replacements⟩ :=
  rfl

theorem Normal.passes {code : Code} (h : Normal code) (n : Nat) :
    Window.passes n code = ⟨code,0,[]⟩ := by
  cases n with
  | zero => rfl
  | succ n => rw [passes_succ,if_pos h.unchanged.1]

theorem normal_nil : Normal [] := ⟨by simp [rule?],.nil⟩

/-- As many passes as the code is heavy are as good as any number. -/
theorem loop_passes {n : Nat} {code : Code} (h : weight code ≤ n) : Loop code (passes n code) := by
  induction n generalizing code with
  | zero =>
    obtain rfl : code = [] := by
      simp only [weight] at h
      exact List.eq_nil_of_length_eq_zero (by omega)
    exact .done normal_nil.unchanged.1
  | succ n ih =>
    have hpass := changed_add_weight_pass code
    rw [passes_succ]
    split
    · next hzero =>
      have hdone := Loop.done hzero
      rwa [(normal_of_unchanged hzero).unchanged.2] at hdone
    · next hne => exact .again hne (ih (by omega))

end Window

/-- The passes end, after at most as many changes as the code has instructions, loads and conditional
branches. In the result no rule matches at any position, and nothing but a label follows directly on
a branch or a return; so doing it again makes no change. -/
theorem Code.simplify_normal (code : Code) :
    Window.Loop code code.simplify ∧ code.simplify.changes ≤ Window.weight code ∧
      Window.Normal code.simplify.code ∧
      (∀ n, ¬ ∃ window after replacement, code.simplify.code.drop n = window ++ after ∧
        Window.Rule after window replacement) ∧
      code.simplify.code.simplify = ⟨code.simplify.code,0,[]⟩ := by
  have hloop : Window.Loop code code.simplify := Window.loop_passes (Nat.le_refl _)
  have hweight := hloop.changes_add_weight
  have hnormal := hloop.normal
  exact ⟨hloop,by omega,hnormal,hnormal.not_rule,hnormal.passes _⟩

end StackCompiler
