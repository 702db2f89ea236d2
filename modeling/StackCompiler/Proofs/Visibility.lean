import StackCompiler.Proofs.Names
import StackCompiler.Proofs.ScopeRuns

/-! Which symbol a name means.
A name means the innermost symbol with its key, provided that no closed scope on the way out to it
lacks the key among its shared names. A call may pass over closed scopes, but then only to a
routine. -/
namespace StackCompiler
namespace ScopeStack

def frame? (s : ScopeStack) (depth : Nat) : Option Scope := s.scopes.reverse[depth]?

def Holds (s : ScopeStack) (key : String) (symbol : Symbol) (depth : Nat) : Prop :=
  ∃ scope, s.frame? depth = some scope ∧ symbol ∈ scope.table.symbols ∧
    scope.table.normalize symbol.name = key

/-- The symbol is the innermost with the key, and every closed scope within shares the key. -/
structure Visible (s : ScopeStack) (key : String) (symbol : Symbol) (depth : Nat) : Prop where
  held : s.Holds key symbol depth
  innermost : ∀ other depth', depth < depth' → ¬s.Holds key other depth'
  shared : ∀ scope depth', depth < depth' → s.frame? depth' = some scope →
    scope.discipline = .closed → key ∈ scope.imported

/-- The symbol is the innermost routine with the key. -/
structure Callable (s : ScopeStack) (key : String) (symbol : Symbol) (depth : Nat) : Prop where
  held : s.Holds key symbol depth
  routine : symbol.isRoutine = true
  innermost : ∀ other depth', depth < depth' → s.Holds key other depth' → other.isRoutine = false

def Orderly (caseSensitive : Bool) (s : ScopeStack) : Prop :=
  ∀ scope ∈ s.scopes, scope.table.caseSensitive = caseSensitive ∧ scope.table.Ordered

section

variable {caseSensitive : Bool} {s s' : ScopeStack} {key : String} {symbol : Symbol} {depth : Nat}

theorem orderly_start (name : String) (caseSensitive : Bool) (scoping : Scoping) :
    Orderly caseSensitive (start name caseSensitive scoping) := by
  intro scope hscope
  obtain rfl := List.mem_singleton.mp hscope
  exact ⟨rfl,SymbolTable.ordered_nil _ _⟩

theorem Orderly.caseSensitive_eq (h : s.Orderly caseSensitive) : s.caseSensitive = caseSensitive :=
  (h s.outermost (List.mem_append_right _ List.mem_cons_self)).1

theorem Orderly.moves (h : s.Orderly caseSensitive) {operation : Operation} {reply : Reply}
    (hm : s.Moves operation reply s') : s'.Orderly caseSensitive := by
  cases hm with
  | push =>
    intro scope hscope
    rcases List.mem_cons.mp hscope with rfl | hscope
    · exact ⟨h.caseSensitive_eq,SymbolTable.ordered_nil _ _⟩
    · exact h scope hscope
  | pop hinner =>
    intro scope hscope
    refine h scope ?_
    rw [scopes,hinner]
    exact List.mem_cons_of_mem _ hscope
  | edit _ _ _ _ hinner houter =>
    have hall : List.Forall₂ Scope.Edited s.scopes s'.scopes :=
      List.rel_append hinner (.cons houter .nil)
    intro scope hscope
    obtain ⟨old,hold,hedited⟩ := exists_of_mem_right hall hscope
    obtain ⟨hcase,hordered⟩ := h old hold
    exact ⟨hedited.table.caseSensitive.trans hcase,hordered.edited hedited.table⟩

theorem Orderly.foldl (h : s.Orderly caseSensitive) (operations : List Operation) :
    (operations.foldl perform s).Orderly caseSensitive :=
  foldl_of_moves h (fun _ _ _ _ h hm => h.moves hm) operations

theorem orderly_after (name : String) (caseSensitive : Bool) (scoping : Scoping)
    (operations : List Operation) :
    Orderly caseSensitive (after name caseSensitive scoping operations) :=
  (orderly_start name caseSensitive scoping).foldl operations

/-- The first answer of a scope, from the first outwards up to one that stops the search. -/
def search {α : Type} (answer : Scope → Option α) (stops : Scope → Bool) :
    List Scope → Option (α × Nat)
  | [] => none
  | scope :: rest =>
    match answer scope with
    | some a => some (a,rest.length)
    | none => if stops scope then none else search answer stops rest

theorem find_eq_search (key : String) (scopes : List Scope) :
    find key scopes = search (fun x => x.table.lookup key) (fun x => x.hides key) scopes := by
  induction scopes with
  | nil => rfl
  | cons scope rest ih =>
    rw [find,search,ih]
    cases scope.table.lookup key <;> rfl

theorem findRoutine_eq_search (key : String) (scopes : List Scope) :
    findRoutine key scopes =
      search (fun x => (x.table.lookup key).filter Symbol.isRoutine) (fun _ => false) scopes := by
  induction scopes with
  | nil => rfl
  | cons scope rest ih =>
    rw [findRoutine,search,ih]
    cases (scope.table.lookup key).filter Symbol.isRoutine <;> rfl

/-- What is found stands behind scopes that neither answer nor stop the search. -/
theorem search_eq_some_iff {α : Type} {answer : Scope → Option α} {stops : Scope → Bool}
    {scopes : List Scope} {a : α} :
    search answer stops scopes = some (a,depth) ↔
      ∃ above scope below, scopes = above ++ scope :: below ∧ below.length = depth ∧
        answer scope = some a ∧ ∀ x ∈ above, answer x = none ∧ stops x = false := by
  induction scopes with
  | nil => simp [search]
  | cons first rest ih =>
    rw [search]
    cases hfirst : answer first with
    | some found =>
      constructor
      · intro h
        obtain ⟨rfl,rfl⟩ : found = a ∧ rest.length = depth := by simpa using h
        exact ⟨[],first,rest,rfl,rfl,hfirst,by simp⟩
      · rintro ⟨above,scope,below,hsplit,rfl,hfound,habove⟩
        cases above with
        | nil =>
          obtain ⟨rfl,rfl⟩ := List.cons.inj hsplit
          rw [hfirst] at hfound
          rw [Option.some.inj hfound]
        | cons x above =>
          obtain ⟨rfl,_⟩ := List.cons.inj hsplit
          have hnone := (habove first List.mem_cons_self).1
          rw [hfirst] at hnone
          cases hnone
    | none =>
      change (if stops first = true then none else search answer stops rest) = some (a,depth) ↔ _
      constructor
      · intro h
        split at h
        · cases h
        · next hstops =>
          obtain ⟨above,scope,below,rfl,hbelow,hfound,habove⟩ := ih.mp h
          refine ⟨first :: above,scope,below,rfl,hbelow,hfound,fun x hx => ?_⟩
          rcases List.mem_cons.mp hx with rfl | hx
          · exact ⟨hfirst,Bool.eq_false_iff.mpr hstops⟩
          · exact habove x hx
      · rintro ⟨above,scope,below,hsplit,hbelow,hfound,habove⟩
        cases above with
        | nil =>
          obtain ⟨rfl,rfl⟩ := List.cons.inj hsplit
          rw [hfirst] at hfound
          cases hfound
        | cons x above =>
          obtain ⟨rfl,rfl⟩ := List.cons.inj hsplit
          rw [if_neg (by rw [(habove first List.mem_cons_self).2]; exact Bool.false_ne_true)]
          exact ih.mpr ⟨above,scope,below,rfl,hbelow,hfound,
            fun x hx => habove x (List.mem_cons_of_mem _ hx)⟩

theorem frame?_eq_some_iff {scope : Scope} :
    s.frame? depth = some scope ↔
      ∃ above below, s.scopes = above ++ scope :: below ∧ below.length = depth := by
  unfold frame?
  constructor
  · intro h
    obtain ⟨hlt,rfl⟩ := List.getElem?_eq_some_iff.mp h
    have hsplit : s.scopes.reverse = s.scopes.reverse.take depth ++
        s.scopes.reverse[depth] :: s.scopes.reverse.drop (depth + 1) := by
      rw [List.getElem_cons_drop,List.take_append_drop]
    have hback := congrArg List.reverse hsplit
    rw [List.reverse_reverse,List.reverse_append,List.reverse_cons,List.append_assoc,
      List.singleton_append] at hback
    refine ⟨_,_,hback,?_⟩
    rw [List.length_reverse,List.length_take]
    omega
  · rintro ⟨above,below,hsplit,rfl⟩
    rw [hsplit]
    simp

/-- The scopes before one of a depth are those at greater depths. -/
theorem mem_above_iff {above below : List Scope} {scope : Scope}
    (h : s.scopes = above ++ scope :: below) {x : Scope} :
    x ∈ above ↔ ∃ depth', below.length < depth' ∧ s.frame? depth' = some x := by
  have hframe : ∀ n, s.frame? (below.length + 1 + n) = above.reverse[n]? := by
    intro n
    unfold frame?
    rw [h,List.reverse_append,List.reverse_cons,List.append_assoc,List.singleton_append,
      List.getElem?_append_right (by rw [List.length_reverse]; omega),List.length_reverse,
      show below.length + 1 + n - below.length = n + 1 by omega,List.getElem?_cons_succ]
  constructor
  · intro hx
    obtain ⟨n,hn⟩ := List.mem_iff_getElem?.mp (List.mem_reverse.mpr hx)
    exact ⟨below.length + 1 + n,by omega,(hframe n).trans hn⟩
  · rintro ⟨depth',hlt,hx⟩
    obtain ⟨n,rfl⟩ : ∃ n, depth' = below.length + 1 + n := ⟨depth' - (below.length + 1),by omega⟩
    rw [hframe] at hx
    exact List.mem_reverse.mp (List.mem_of_getElem? hx)

theorem Orderly.lookup_eq_some_iff (h : s.Orderly caseSensitive) {name : String} {scope : Scope}
    (hscope : scope ∈ s.scopes) :
    scope.table.lookup (s.normalize name) = some symbol ↔
      symbol ∈ scope.table.symbols ∧ scope.table.normalize symbol.name = s.normalize name := by
  obtain ⟨hcase,hordered⟩ := h scope hscope
  have hkey : scope.table.normalize (s.normalize name) = s.normalize name := by
    rw [SymbolTable.normalize,normalize_eq,hcase,h.caseSensitive_eq,normalize_normalize]
  rw [SymbolTable.lookup,hkey]
  exact hordered.get?_eq_some_iff

theorem Orderly.holds_iff (h : s.Orderly caseSensitive) {name : String} :
    s.Holds (s.normalize name) symbol depth ↔
      ∃ scope, s.frame? depth = some scope ∧ scope.table.lookup (s.normalize name) = some symbol := by
  refine exists_congr fun scope => and_congr_right fun hframe => ?_
  refine (h.lookup_eq_some_iff ?_).symm
  exact List.mem_reverse.mp (List.mem_of_getElem? hframe)

theorem hides_eq_false_iff {scope : Scope} :
    scope.hides key = false ↔ (scope.discipline = .closed → key ∈ scope.imported) := by
  unfold Scope.hides
  cases scope.discipline <;> simp

theorem Orderly.resolve_eq_some_iff (h : s.Orderly caseSensitive) {name : String} :
    s.resolve name = some (symbol,depth) ↔ s.Visible (s.normalize name) symbol depth := by
  rw [resolve,find_eq_search,search_eq_some_iff]
  constructor
  · rintro ⟨above,scope,below,hsplit,rfl,hfound,habove⟩
    have hframe : s.frame? below.length = some scope := frame?_eq_some_iff.mpr ⟨above,below,hsplit,rfl⟩
    refine ⟨h.holds_iff.mpr ⟨scope,hframe,hfound⟩,?_,?_⟩
    · intro other depth' hlt hother
      obtain ⟨x,hx,hlookup⟩ := h.holds_iff.mp hother
      have hnone := (habove x ((mem_above_iff hsplit).mpr ⟨depth',hlt,hx⟩)).1
      rw [hlookup] at hnone
      cases hnone
    · intro x depth' hlt hx
      exact hides_eq_false_iff.mp (habove x ((mem_above_iff hsplit).mpr ⟨depth',hlt,hx⟩)).2
  · rintro ⟨hheld,hinnermost,hshared⟩
    obtain ⟨scope,hframe,hfound⟩ := h.holds_iff.mp hheld
    obtain ⟨above,below,hsplit,rfl⟩ := frame?_eq_some_iff.mp hframe
    refine ⟨above,scope,below,hsplit,rfl,hfound,fun x hx => ?_⟩
    obtain ⟨depth',hlt,hx⟩ := (mem_above_iff hsplit).mp hx
    refine ⟨?_,hides_eq_false_iff.mpr (hshared x depth' hlt hx)⟩
    refine Option.eq_none_iff_forall_ne_some.mpr fun other hother => ?_
    exact hinnermost other depth' hlt (h.holds_iff.mpr ⟨x,hx,hother⟩)

theorem Orderly.findRoutine_eq_some_iff (h : s.Orderly caseSensitive) {name : String} :
    findRoutine (s.normalize name) s.scopes = some (symbol,depth) ↔
      s.Callable (s.normalize name) symbol depth := by
  rw [findRoutine_eq_search,search_eq_some_iff]
  constructor
  · rintro ⟨above,scope,below,hsplit,rfl,hfound,habove⟩
    obtain ⟨hfound,hroutine⟩ := Option.filter_eq_some_iff.mp hfound
    have hframe : s.frame? below.length = some scope := frame?_eq_some_iff.mpr ⟨above,below,hsplit,rfl⟩
    refine ⟨h.holds_iff.mpr ⟨scope,hframe,hfound⟩,hroutine,?_⟩
    intro other depth' hlt hother
    obtain ⟨x,hx,hlookup⟩ := h.holds_iff.mp hother
    have hnone := (habove x ((mem_above_iff hsplit).mpr ⟨depth',hlt,hx⟩)).1
    simpa using Option.filter_eq_none_iff.mp hnone other hlookup
  · rintro ⟨hheld,hroutine,hinnermost⟩
    obtain ⟨scope,hframe,hfound⟩ := h.holds_iff.mp hheld
    obtain ⟨above,below,hsplit,rfl⟩ := frame?_eq_some_iff.mp hframe
    refine ⟨above,scope,below,hsplit,rfl,Option.filter_eq_some_iff.mpr ⟨hfound,hroutine⟩,fun x hx => ?_⟩
    obtain ⟨depth',hlt,hx⟩ := (mem_above_iff hsplit).mp hx
    refine ⟨Option.filter_eq_none_iff.mpr fun other hother => ?_,rfl⟩
    rw [hinnermost other depth' hlt (h.holds_iff.mpr ⟨x,hx,hother⟩)]
    exact Bool.false_ne_true

end

/-- After any operations a name means exactly the symbol that is visible under its key, or nothing.
A call of the name means the same where that is something, and otherwise the innermost routine with
the key, whatever the scopes hide. -/
theorem resolve_after (name : String) (caseSensitive : Bool) (scoping : Scoping)
    (operations : List Operation) (called : String) (symbol : Symbol) (depth : Nat) :
    let s := after name caseSensitive scoping operations
    let key := StackCompiler.normalize caseSensitive called
    (s.resolve called = some (symbol,depth) ↔ s.Visible key symbol depth) ∧
      (s.resolveRoutine called = some (symbol,depth) ↔
        s.resolve called = some (symbol,depth) ∨
          s.resolve called = none ∧ s.Callable key symbol depth) := by
  intro s key
  have horderly : s.Orderly caseSensitive := orderly_after name caseSensitive scoping operations
  have hkey : s.normalize called = key := by
    rw [normalize_eq,horderly.caseSensitive_eq]
  rw [← hkey]
  refine ⟨horderly.resolve_eq_some_iff,?_⟩
  rw [resolveRoutine]
  cases hr : s.resolve called with
  | some found => simp
  | none => simp [horderly.findRoutine_eq_some_iff]

end ScopeStack
end StackCompiler
