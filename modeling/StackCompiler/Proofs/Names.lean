import Mathlib.Data.List.Basic
import StackCompiler.Proofs.Frames

/-! Keys of names.
Capital letters are their own capitals, so a key is its own key. The tables of all open scopes agree
on whether case matters; then a name is always found under its key. -/
namespace StackCompiler

namespace Text

def smallLetters : List Nat :=
  caseRuns.flatMap (fun r => List.range' r.first ((r.last - r.first) / r.step + 1) r.step) ++
    expansions.map Prod.fst

def capitalLetters : List Nat :=
  caseRuns.flatMap (fun r => List.range' r.capital ((r.last - r.first) / r.step + 1) r.step) ++
    expansions.flatMap Prod.snd

def bits (xs : List Nat) : Nat := xs.foldr (fun n m => 1 <<< n ||| m) 0

theorem testBit_bits {xs : List Nat} {n : Nat} (h : n ∈ xs) : (bits xs).testBit n = true := by
  induction xs with
  | nil => cases h
  | cons x xs ih =>
    rw [bits,List.foldr_cons,Nat.testBit_or,Nat.one_shiftLeft,Nat.testBit_two_pow,Bool.or_eq_true]
    rcases List.mem_cons.mp h with rfl | h
    · exact .inl (by simp)
    · exact .inr (ih h)

theorem bits_small_and_capital : bits smallLetters &&& bits capitalLetters = 0 := by
  decide +kernel

theorem not_small_of_capital {n : Nat} (h : n ∈ capitalLetters) : n ∉ smallLetters := by
  intro hs
  have hbit : (bits smallLetters &&& bits capitalLetters).testBit n = true := by
    rw [Nat.testBit_and,testBit_bits hs,testBit_bits h]
    rfl
  rw [bits_small_and_capital] at hbit
  simp at hbit

theorem capitalLetters_valid : ∀ n ∈ capitalLetters, n.isValidChar := by
  decide +kernel

theorem mem_letters_of_find {n : Nat} {r : CaseRun} (h : caseRuns.find? (·.covers n) = some r) :
    n ∈ smallLetters ∧ r.map n ∈ capitalLetters := by
  have hr : r ∈ caseRuns := List.mem_of_find?_eq_some h
  have hcovers := List.find?_some h
  simp only [CaseRun.covers,Bool.and_eq_true,decide_eq_true_eq,beq_iff_eq] at hcovers
  obtain ⟨⟨hfirst,hlast⟩,hmod⟩ := hcovers
  have hstep : r.step * ((n - r.first) / r.step) = n - r.first :=
    Nat.mul_div_cancel' (Nat.dvd_of_mod_eq_zero hmod)
  have hle : (n - r.first) / r.step < (r.last - r.first) / r.step + 1 :=
    Nat.lt_succ_of_le (Nat.div_le_div_right (by omega))
  constructor
  · refine List.mem_append_left _ (List.mem_flatMap.mpr ⟨r,hr,?_⟩)
    exact List.mem_range'.mpr ⟨_,hle,by omega⟩
  · refine List.mem_append_left _ (List.mem_flatMap.mpr ⟨r,hr,?_⟩)
    exact List.mem_range'.mpr ⟨_,hle,by rw [hstep,CaseRun.map]⟩

theorem mem_letters_of_lookup {n : Nat} {form : List Nat} (h : expansions.lookup n = some form) :
    n ∈ smallLetters ∧ ∀ m ∈ form, m ∈ capitalLetters := by
  obtain ⟨before,after,he,_⟩ := List.lookup_eq_some_iff.mp h
  have hmem : (n,form) ∈ expansions := by
    rw [he]
    exact List.mem_append_right _ List.mem_cons_self
  exact ⟨List.mem_append_right _ (List.mem_map_of_mem hmem),
    fun m hm => List.mem_append_right _ (List.mem_flatMap.mpr ⟨_,hmem,hm⟩)⟩

theorem capital_of_not_small {c : Char} (h : c.toNat ∉ smallLetters) : capital c = [c] := by
  unfold capital
  split
  · next r hr =>
    exact absurd (mem_letters_of_find hr).1 h
  · split
    · next form hform => exact absurd (mem_letters_of_lookup hform).1 h
    · rfl

theorem capital_of_capital {n : Nat} (h : n ∈ capitalLetters) :
    capital (Char.ofNat n) = [Char.ofNat n] := by
  apply capital_of_not_small
  rw [show (Char.ofNat n).toNat = n by
    rw [Char.ofNat,dif_pos (capitalLetters_valid n h)]
    rfl]
  exact not_small_of_capital h

theorem capital_of_mem {c d : Char} (h : d ∈ capital c) : capital d = [d] := by
  unfold capital at h
  split at h
  · next r hr =>
    rw [List.mem_singleton.mp h]
    exact capital_of_capital (mem_letters_of_find hr).2
  · next hruns =>
    split at h
    · next form hform =>
      obtain ⟨n,hn,rfl⟩ := List.mem_map.mp h
      exact capital_of_capital ((mem_letters_of_lookup hform).2 n hn)
    · next hform =>
      rw [List.mem_singleton.mp h,capital,hruns]
      simp only [hform]

theorem upper_upper (s : String) : upper (upper s) = upper s := by
  unfold upper
  rw [String.toList_ofList,List.flatMap_assoc]
  congr 1
  refine List.flatMap_congr fun c _ => ?_
  calc (capital c).flatMap capital = (capital c).flatMap fun d => [d] :=
        List.flatMap_congr fun d hd => capital_of_mem hd
    _ = capital c := by simp

end Text

@[simp] theorem normalize_normalize (caseSensitive : Bool) (name : String) :
    normalize caseSensitive (normalize caseSensitive name) = normalize caseSensitive name := by
  unfold normalize
  split
  · rfl
  · exact Text.upper_upper name

namespace ScopeStack

theorem normalize_eq (s : ScopeStack) (name : String) :
    s.normalize name = StackCompiler.normalize s.caseSensitive name := rfl

def Uniform (s : ScopeStack) : Prop :=
  ∀ scope ∈ s.inner, scope.table.caseSensitive = s.caseSensitive

theorem key_of_find {caseSensitive : Bool} {name : String} {scopes : List Scope}
    {found : Symbol × Nat} (hs : ∀ scope ∈ scopes, scope.table.caseSensitive = caseSensitive)
    (h : find (StackCompiler.normalize caseSensitive name) scopes = some found) :
    found.1.key = StackCompiler.normalize caseSensitive name := by
  induction scopes with
  | nil => cases h
  | cons scope rest ih =>
    rw [find] at h
    split at h
    · next symbol hsymbol =>
      cases h
      have hkey := List.find?_some hsymbol
      rw [beq_iff_eq] at hkey
      rw [hkey,SymbolTable.normalize,hs scope List.mem_cons_self,normalize_normalize]
    · split at h
      · cases h
      · exact ih (fun x hx => hs x (List.mem_cons_of_mem _ hx)) h

namespace Uniform

variable {s s' : ScopeStack}

theorem key_of_resolve (hs : s.Uniform) {name : String} {found : Symbol × Nat}
    (h : s.resolve name = some found) : found.1.key = s.normalize name := by
  refine key_of_find (fun scope hmem => ?_) h
  rcases List.mem_append.mp hmem with hmem | hmem
  · exact hs scope hmem
  · rw [List.mem_singleton.mp hmem]
    rfl

theorem of_outline (hs : s.Uniform) (h : s'.outline = s.outline) : s'.Uniform := by
  intro scope hscope
  have hmem : (scope.id,scope.table.caseSensitive) ∈ s.outline.1 := by
    rw [← h]
    exact List.mem_map_of_mem hscope
  obtain ⟨old,hold,he⟩ := List.mem_map.mp hmem
  have hrule : old.table.caseSensitive = scope.table.caseSensitive := congrArg Prod.snd he
  rw [← hrule,hs old hold]
  exact (congrArg Prod.snd h).symm

theorem push (hs : s.Uniform) {name : String} {discipline : Discipline} {handle : ScopeHandle}
    (h : s.push name discipline = (.ok handle,s')) : s'.Uniform := by
  unfold ScopeStack.push at h
  split at h
  · cases h
  · cases h
    intro scope hscope
    rcases List.mem_cons.mp hscope with rfl | hscope
    · rfl
    · exact hs scope hscope

theorem pop (hs : s.Uniform) {handle : ScopeHandle} {table : SymbolTable}
    (h : s.pop handle = (.ok table,s')) : s'.Uniform := by
  unfold ScopeStack.pop at h
  split at h
  · cases h
  · next scope rest hi =>
    split at h
    · cases h
      intro x hx
      exact hs x (by rw [hi]; exact List.mem_cons_of_mem _ hx)
    · cases h

end Uniform
end ScopeStack

namespace Lowering.State

variable {r : Routine} {s s' : State}

theorem Changes.caseSensitive (h : s.Changes r s') :
    s'.scopes.caseSensitive = s.scopes.caseSensitive :=
  congrArg Prod.snd h.outline

theorem Changes.uniform (h : s.Changes r s') (hs : s.scopes.Uniform) : s'.scopes.Uniform :=
  hs.of_outline h.outline

end Lowering.State
end StackCompiler
