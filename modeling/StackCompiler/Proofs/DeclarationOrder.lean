import Mathlib.Data.List.Induction
import StackCompiler.Proofs.ScopeRuns

/-! A table after any declarations and removals.
It lists the symbols that were declared and not removed since, in the order of their declarations.
What a name finds, whether a declaration is accepted and what a removal takes away depend on nothing
but the names in this list, compared by their keys. -/
namespace StackCompiler
namespace SymbolTable

inductive Operation where
  | declare (symbol : Symbol)
  | remove (name : String)

def perform (t : SymbolTable) : Operation → SymbolTable
  | .declare symbol => (t.declare symbol).2
  | .remove name => t.remove name

def after (name : String) (caseSensitive : Bool) (operations : List Operation) : SymbolTable :=
  operations.foldl perform { name, caseSensitive }

/-- The symbol that an operation on the table declares, if it succeeds. -/
def gained? (t : SymbolTable) : Operation → Option Symbol
  | .declare symbol => (t.declare symbol).1.toOption
  | .remove _ => none

/-- The operation asks to remove a name with the key of the symbol. -/
def Operation.erases (caseSensitive : Bool) (symbol : Symbol) : Operation → Bool
  | .declare _ => false
  | .remove name =>
    StackCompiler.normalize caseSensitive name == StackCompiler.normalize caseSensitive symbol.name

/-- The symbol that the operation at a place declared, unless a later one removed it. -/
def standing? (name : String) (caseSensitive : Bool) (operations : List Operation) (place : Nat) :
    Option Symbol :=
  (operations[place]?.bind (gained? (after name caseSensitive (operations.take place)))).filter
    fun symbol => !(operations.drop (place + 1)).any (·.erases caseSensitive symbol)

section

variable {t : SymbolTable}

theorem edited_perform (t : SymbolTable) (operation : Operation) : t.Edited (t.perform operation) := by
  cases operation with
  | declare symbol =>
    rcases h : t.declare symbol with ⟨d | declared,t'⟩ <;> rw [perform,h]
    · rw [t.cautious_declare symbol d t' h]
      exact .same
    · exact edited_of_declare h
  | remove name => exact .remove name

/-- In an ordered table a name finds the symbol whose name has the same key. -/
theorem Ordered.lookup_eq_some_iff (h : t.Ordered) {name : String} {symbol : Symbol} :
    t.lookup name = some symbol ↔
      symbol ∈ t.symbols ∧ t.normalize symbol.name = t.normalize name :=
  h.get?_eq_some_iff

theorem Ordered.lookup_eq_none_iff (h : t.Ordered) {name : String} :
    t.lookup name = none ↔ ∀ symbol ∈ t.symbols, t.normalize symbol.name ≠ t.normalize name := by
  rw [Option.eq_none_iff_forall_ne_some]
  constructor
  · intro hnone symbol hmem hkey
    exact hnone symbol (h.lookup_eq_some_iff.mpr ⟨hmem,hkey⟩)
  · intro hall symbol hfound
    obtain ⟨hmem,hkey⟩ := h.lookup_eq_some_iff.mp hfound
    exact hall symbol hmem hkey

theorem remove_of_none {name : String} (h : t.lookup name = none) : t.remove name = t := by
  have hsame : t.symbols.eraseP (·.key == t.normalize name) = t.symbols :=
    List.eraseP_of_forall_not (List.find?_eq_none.mp h)
  rw [remove,hsame]

theorem remove_of_some {name : String} {symbol : Symbol} (h : t.lookup name = some symbol) :
    ∃ before behind, t.symbols = before ++ symbol :: behind ∧
      t.remove name = { t with symbols := before ++ behind } := by
  obtain ⟨hkey,before,behind,hsplit,hbefore⟩ := List.find?_eq_some_iff_append.mp h
  refine ⟨before,behind,hsplit,?_⟩
  have herase : t.symbols.eraseP (·.key == t.normalize name) = before ++ behind := by
    rw [hsplit,List.eraseP_append_right _ fun x hx => by simpa using hbefore x hx,
      List.eraseP_cons_of_pos (by exact hkey)]
  rw [remove,herase]

theorem Ordered.symbols_remove (h : t.Ordered) (name : String) :
    (t.remove name).symbols =
      t.symbols.filter fun symbol => t.normalize symbol.name ≠ t.normalize name := by
  cases hlookup : t.lookup name with
  | none =>
    rw [remove_of_none hlookup]
    exact (List.filter_eq_self.mpr (by simpa using h.lookup_eq_none_iff.mp hlookup)).symm
  | some symbol =>
    obtain ⟨before,behind,hsplit,hremove⟩ := remove_of_some hlookup
    have hfound := (h.lookup_eq_some_iff.mp hlookup).2
    have hnodup : t.symbols.Nodup := List.Nodup.of_map _ h.distinct
    rw [hsplit,List.nodup_middle,List.nodup_cons] at hnodup
    have hothers : ∀ x ∈ before ++ behind, t.normalize x.name ≠ t.normalize name := by
      intro x hx hkey
      have hmem : x ∈ t.symbols := by
        rw [hsplit]
        exact List.mem_append.mpr ((List.mem_append.mp hx).imp_right (List.mem_cons_of_mem _))
      have hsame := h.lookup_eq_some_iff.mpr ⟨hmem,hkey⟩
      rw [hlookup] at hsame
      exact hnodup.1 (Option.some.inj hsame ▸ hx)
    rw [hremove,hsplit,List.filter_append,List.filter_cons_of_neg (by simpa using hfound),
      ← List.filter_append]
    exact (List.filter_eq_self.mpr (by simpa using hothers)).symm

theorem declare_of_free {symbol : Symbol} (h : t.lookup symbol.name = none) :
    t.declare symbol = (.ok (t.keyed symbol),{ t with symbols := t.symbols ++ [t.keyed symbol] }) := by
  rw [declare,h]

theorem declare_of_taken {symbol found : Symbol} (h : t.lookup symbol.name = some found) :
    t.declare symbol = (.error ⟨symbol.line,.duplicateSymbol symbol.name t.name⟩,t) := by
  rw [declare,h]

theorem Ordered.declare_fails_iff (h : t.Ordered) {symbol : Symbol} :
    (∃ d t', t.declare symbol = (.error d,t')) ↔
      ∃ other ∈ t.symbols, t.normalize other.name = t.normalize symbol.name := by
  cases hlookup : t.lookup symbol.name with
  | none =>
    have hfree := h.lookup_eq_none_iff.mp hlookup
    simp only [declare_of_free hlookup,Prod.mk.injEq,reduceCtorEq,false_and,exists_false,false_iff]
    rintro ⟨other,hmem,hkey⟩
    exact hfree other hmem hkey
  | some found =>
    exact ⟨fun _ => ⟨found,h.lookup_eq_some_iff.mp hlookup⟩,fun _ => ⟨_,t,declare_of_taken hlookup⟩⟩

theorem eq_of_declare_error {symbol : Symbol} {d : Diagnostic} {t' : SymbolTable}
    (h : t.declare symbol = (.error d,t')) :
    d = ⟨symbol.line,.duplicateSymbol symbol.name t.name⟩ ∧ t' = t ∧
      t.perform (.declare symbol) = t' := by
  have hperform : t.perform (.declare symbol) = t' := by rw [perform,h]
  unfold declare at h
  split at h <;> cases h
  exact ⟨rfl,rfl,hperform⟩

theorem eq_of_declare_ok {symbol declared : Symbol} {t' : SymbolTable}
    (h : t.declare symbol = (.ok declared,t')) : declared = t.keyed symbol ∧
      t' = { t with symbols := t.symbols ++ [declared] } ∧ t.perform (.declare symbol) = t' := by
  have hperform : t.perform (.declare symbol) = t' := by rw [perform,h]
  unfold declare at h
  split at h <;> cases h
  exact ⟨rfl,rfl,hperform⟩

/-- An operation drops what it erases and puts what it declares at the end. -/
theorem Ordered.symbols_perform (h : t.Ordered) (operation : Operation) :
    (t.perform operation).symbols =
      t.symbols.filter (fun symbol => !operation.erases t.caseSensitive symbol) ++
        (t.gained? operation).toList := by
  cases operation with
  | declare symbol =>
    have hall : t.symbols.filter
        (fun x => !(Operation.declare symbol).erases t.caseSensitive x) = t.symbols :=
      List.filter_eq_self.mpr fun _ _ => rfl
    rw [hall]
    cases hlookup : t.lookup symbol.name with
    | none =>
      simp only [perform,gained?,declare_of_free hlookup]
      rfl
    | some found =>
      simp only [perform,gained?,declare_of_taken hlookup]
      exact (List.append_nil _).symm
  | remove name =>
    rw [gained?,Option.toList_none,List.append_nil]
    refine (h.symbols_remove name).trans (List.filter_congr fun symbol _ => ?_)
    rw [Operation.erases,beq_eq_decide,← decide_not,decide_eq_decide]
    exact ne_comm

variable (name : String) (caseSensitive : Bool) (operations : List Operation)

theorem ordered_after : (after name caseSensitive operations).Ordered :=
  List.foldlRecOn operations perform (ordered_nil name caseSensitive)
    fun t ht operation _ => ht.edited (edited_perform t operation)

theorem caseSensitive_after : (after name caseSensitive operations).caseSensitive = caseSensitive :=
  List.foldlRecOn (motive := fun t : SymbolTable => t.caseSensitive = caseSensitive) operations
    perform rfl fun t ht operation _ => (edited_perform t operation).caseSensitive.trans ht

theorem name_after : (after name caseSensitive operations).name = name :=
  List.foldlRecOn (motive := fun t : SymbolTable => t.name = name) operations
    perform rfl fun t ht operation _ => (edited_perform t operation).name.trans ht

theorem normalize_after (n : String) :
    (after name caseSensitive operations).normalize n = StackCompiler.normalize caseSensitive n := by
  rw [normalize,caseSensitive_after]

theorem after_concat (operation : Operation) :
    after name caseSensitive (operations ++ [operation]) =
      (after name caseSensitive operations).perform operation := by
  rw [after,List.foldl_concat,← after]

/-- One more operation may erase what stood at an earlier place. -/
theorem standing?_concat_of_lt {place : Nat} (h : place < operations.length) (operation : Operation) :
    standing? name caseSensitive (operations ++ [operation]) place =
      (standing? name caseSensitive operations place).filter
        fun symbol => !operation.erases caseSensitive symbol := by
  unfold standing?
  rw [List.getElem?_append_left h,List.take_append_of_le_length (Nat.le_of_lt h),
    List.drop_append_of_le_length h,Option.filter_filter]
  congr 1
  funext symbol
  simp

theorem standing?_concat_length (operation : Operation) :
    standing? name caseSensitive (operations ++ [operation]) operations.length =
      gained? (after name caseSensitive operations) operation := by
  unfold standing?
  rw [List.getElem?_concat_length,List.take_left,List.drop_of_length_le (by simp),Option.bind_some]
  cases gained? (after name caseSensitive operations) operation <;> rfl

theorem symbols_after : (after name caseSensitive operations).symbols =
    (List.range operations.length).filterMap (standing? name caseSensitive operations) := by
  -- the last operation filters what stood before it and adds at most one symbol at the end
  induction operations using List.reverseRecOn with
  | nil => rfl
  | append_singleton operations operation ih =>
    have hbefore : (List.range operations.length).filterMap
          (standing? name caseSensitive (operations ++ [operation])) =
        (after name caseSensitive operations).symbols.filter
          fun symbol => !operation.erases caseSensitive symbol := by
      rw [ih,List.filter_filterMap]
      refine List.filterMap_congr fun place hplace => ?_
      exact standing?_concat_of_lt name caseSensitive operations (List.mem_range.mp hplace) operation
    rw [List.length_append,List.length_singleton,List.range_succ,List.filterMap_append,hbefore,
      after_concat,(ordered_after name caseSensitive operations).symbols_perform,caseSensitive_after,
      ← standing?_concat_length]
    cases hlast : standing? name caseSensitive (operations ++ [operation]) operations.length <;>
      simp [hlast]

end

/-- After any declarations and removals the table is the ordered map of the symbols declared and not
removed since: it lists them in the order of their declarations, each under the key of its name. A
name finds the one with its key; a declaration fails exactly if there is one, and then changes
nothing; a removal cuts out this one and nothing else. -/
theorem after_is_ordered_map (name : String) (caseSensitive : Bool) (operations : List Operation) :
    let t := after name caseSensitive operations
    let key := StackCompiler.normalize caseSensitive
    t.symbols = (List.range operations.length).filterMap (standing? name caseSensitive operations) ∧
    (t.symbols.map Symbol.key).Nodup ∧
    (∀ s ∈ t.symbols, s.key = key s.name ∧ t.get? s.key = some s) ∧
    (∀ n s, t.lookup n = some s ↔ s ∈ t.symbols ∧ key s.name = key n) ∧
    (∀ s, (∃ d t', t.declare s = (.error d,t')) ↔ ∃ r ∈ t.symbols, key r.name = key s.name) ∧
    (∀ s d t', t.declare s = (.error d,t') → d = ⟨s.line,.duplicateSymbol s.name name⟩ ∧ t' = t ∧
      t.perform (.declare s) = t') ∧
    (∀ s declared t', t.declare s = (.ok declared,t') → declared = { s with key := key s.name } ∧
      t' = { t with symbols := t.symbols ++ [declared] } ∧ t.perform (.declare s) = t') ∧
    (∀ n, t.lookup n = none → t.remove n = t) ∧
    ∀ n s, t.lookup n = some s → ∃ before behind, t.symbols = before ++ s :: behind ∧
      t.remove n = { t with symbols := before ++ behind } := by
  intro t key
  have h : t.Ordered := ordered_after name caseSensitive operations
  have hkey : t.normalize = key := funext (normalize_after name caseSensitive operations)
  have hname : t.name = name := name_after name caseSensitive operations
  refine ⟨symbols_after name caseSensitive operations,h.distinct,fun s hs => ?_,fun n s => ?_,
    fun s => ?_,fun s d t' hd => ?_,fun s declared t' hok => ?_,fun n => remove_of_none,
    fun n s => remove_of_some⟩
  · have hs' : s.key = key s.name := hkey ▸ h.keys s hs
    exact ⟨hs',h.get?_eq_some_iff.mpr ⟨hs,hkey ▸ hs'.symm⟩⟩
  · rw [h.lookup_eq_some_iff,hkey]
  · rw [h.declare_fails_iff,hkey]
  · exact hname ▸ eq_of_declare_error hd
  · have hdeclared := eq_of_declare_ok hok
    rwa [keyed,hkey] at hdeclared

end SymbolTable
end StackCompiler
