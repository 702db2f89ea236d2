import Mathlib.Data.List.Nodup
import StackCompiler.Proofs.Assembly

/-! Operations on the open scopes, one after another.
An operation opens a scope, closes one, or edits tables in place; one that fails is as if it had not
been asked for. In all tables that arise every symbol stands under the key of its name, each key
once. -/
namespace StackCompiler

namespace SymbolTable

inductive Edited (t : SymbolTable) : SymbolTable → Prop where
  | same : t.Edited t
  | declare (symbol : Symbol) (h : t.lookup symbol.name = none) :
      t.Edited { t with symbols := t.symbols ++ [t.keyed symbol] }
  | remove (name : String) : t.Edited (t.remove name)
  | touch (key : String) (line : Line) : t.Edited (t.touch key line)

/-- Every symbol stands under the key of its name, and no key is used twice. -/
structure Ordered (t : SymbolTable) : Prop where
  keys : ∀ symbol ∈ t.symbols, symbol.key = t.normalize symbol.name
  distinct : t.Distinct

section

variable {t t' : SymbolTable}

theorem edited_of_declare {symbol declared : Symbol} (h : t.declare symbol = (.ok declared,t')) :
    t.Edited t' := by
  unfold declare at h
  split at h
  · cases h
  · next hfree =>
    cases h
    exact .declare symbol hfree

theorem Edited.name (h : t.Edited t') : t'.name = t.name := by
  cases h <;> rfl

theorem Edited.caseSensitive (h : t.Edited t') : t'.caseSensitive = t.caseSensitive := by
  cases h <;> rfl

theorem ordered_nil (name : String) (caseSensitive : Bool) :
    Ordered { name, caseSensitive } :=
  ⟨by simp,List.nodup_nil⟩

theorem Ordered.edited (h : t.Ordered) (he : t.Edited t') : t'.Ordered := by
  cases he with
  | same => exact h
  | declare symbol hfree =>
    refine ⟨fun x hx => ?_,h.distinct.add hfree⟩
    rcases List.mem_append.mp hx with hx | hx
    · exact h.keys x hx
    · rw [List.mem_singleton.mp hx]
      rfl
  | remove name =>
    exact ⟨fun x hx => h.keys x (List.mem_of_mem_eraseP hx),
      h.distinct.sublist (List.eraseP_sublist.map _)⟩
  | touch key line =>
    have hsame : ∀ x : Symbol, (if x.key == key then x.touch line else x).key = x.key ∧
        (if x.key == key then x.touch line else x).name = x.name := by
      intro x
      unfold Symbol.touch
      split
      · split <;> exact ⟨rfl,rfl⟩
      · exact ⟨rfl,rfl⟩
    refine ⟨fun x hx => ?_,?_⟩
    · obtain ⟨old,hold,rfl⟩ := List.mem_map.mp hx
      rw [(hsame old).1,(hsame old).2]
      exact h.keys old hold
    · have hkeys : (t.touch key line).symbols.map Symbol.key = t.symbols.map Symbol.key := by
        rw [touch,List.map_map]
        exact List.map_congr_left fun x _ => (hsame x).1
      rw [Distinct,hkeys]
      exact h.distinct

/-- The symbol found under a key is the one whose name has that key. -/
theorem Ordered.get?_eq_some_iff (h : t.Ordered) {key : String} {symbol : Symbol} :
    t.get? key = some symbol ↔ symbol ∈ t.symbols ∧ t.normalize symbol.name = key := by
  constructor
  · intro hfound
    have hmem : symbol ∈ t.symbols := List.mem_of_find?_eq_some hfound
    have hkey : symbol.key = key := by simpa using List.find?_some hfound
    exact ⟨hmem,(h.keys symbol hmem).symm.trans hkey⟩
  · rintro ⟨hmem,rfl⟩
    cases hfound : t.get? (t.normalize symbol.name) with
    | none =>
      have hnot := List.find?_eq_none.mp hfound symbol hmem
      simp [h.keys symbol hmem] at hnot
    | some other =>
      have hother : other ∈ t.symbols := List.mem_of_find?_eq_some hfound
      have hkey : other.key = t.normalize symbol.name := by simpa using List.find?_some hfound
      rw [List.inj_on_of_nodup_map h.distinct hother hmem (hkey.trans (h.keys symbol hmem).symm)]

end

end SymbolTable

structure Scope.Edited (x y : Scope) : Prop where
  id : y.id = x.id
  discipline : y.discipline = x.discipline
  table : x.table.Edited y.table

theorem Scope.Edited.refl (x : Scope) : x.Edited x := ⟨rfl,rfl,.same⟩

theorem Scope.edited_share (x : Scope) (key : String) : x.Edited (x.share key) := by
  unfold Scope.share
  split <;> exact ⟨rfl,rfl,.same⟩

namespace ScopeStack

inductive Operation where
  | push (name : String) (discipline : Discipline)
  | pop (handle : ScopeHandle)
  | declare (symbol : Symbol)
  | declareGlobal (symbol : Symbol)
  | remove (name : String)
  | share (name : String) (line : Line)
  | touch (found : Symbol × Nat) (line : Line)

inductive Reply where
  | handle (handle : ScopeHandle)
  | table (table : SymbolTable)
  | symbol (symbol : Symbol)
  | done

/-- The answer to an operation, or why it fails, and the scopes after it. -/
def attempt (s : ScopeStack) : Operation → Except Diagnostic Reply × ScopeStack
  | .push name discipline => (s.push name discipline).map (Except.map .handle) id
  | .pop handle => (s.pop handle).map (Except.map .table) id
  | .declare symbol => (s.declare symbol).map (Except.map .symbol) id
  | .declareGlobal symbol => (s.declareGlobal symbol).map (Except.map .symbol) id
  | .remove name => (.ok .done,s.remove name)
  | .share name line => (s.share name line).map (Except.map .symbol) id
  | .touch found line => (.ok .done,s.touch found line)

def perform (s : ScopeStack) (operation : Operation) : ScopeStack := (s.attempt operation).2

/-- The scopes after operations on a stack that has only the outermost scope. -/
def after (name : String) (caseSensitive : Bool) (scoping : Scoping)
    (operations : List Operation) : ScopeStack :=
  operations.foldl perform (start name caseSensitive scoping)

def fresh (s : ScopeStack) (name : String) (discipline : Discipline) : Scope where
  id := s.nextId
  table := { name, caseSensitive := s.caseSensitive }
  discipline := if s.scoping = .flat then .opened else discipline

/-- What a successful operation does: it opens a scope, closes the innermost or edits in place. -/
inductive Moves (s : ScopeStack) : Operation → Reply → ScopeStack → Prop where
  | push {name : String} {discipline : Discipline} (hflat : s.scoping = .flat → s.inner = []) :
      Moves s (.push name discipline) (.handle ⟨s.depth + 1,s.nextId⟩)
        { s with inner := s.fresh name discipline :: s.inner, nextId := s.nextId + 1 }
  | pop {scope : Scope} {rest : List Scope} (hinner : s.inner = scope :: rest) :
      Moves s (.pop ⟨s.depth,scope.id⟩) (.table scope.table) { s with inner := rest }
  | edit {operation : Operation} {reply : Reply} {s' : ScopeStack}
      (hpush : ∀ name discipline, operation ≠ .push name discipline)
      (hpop : ∀ handle, operation ≠ .pop handle)
      (hscoping : s'.scoping = s.scoping) (hnext : s'.nextId = s.nextId)
      (hinner : List.Forall₂ Scope.Edited s.inner s'.inner)
      (houter : s.outermost.Edited s'.outermost)
      (himported : s'.outermost.imported = s.outermost.imported) :
      Moves s operation reply s'

section

variable {s s' : ScopeStack}

theorem forall₂_edited (scopes : List Scope) : List.Forall₂ Scope.Edited scopes scopes :=
  List.forall₂_same.mpr fun x _ => .refl x

theorem forall₂_touchAt (key : String) (line : Line) (depth : Nat) (scopes : List Scope) :
    List.Forall₂ Scope.Edited scopes (touchAt key line depth scopes) := by
  induction scopes with
  | nil => exact .nil
  | cons scope rest ih =>
    rw [touchAt]
    split
    · exact .cons ⟨rfl,rfl,.touch key line⟩ (forall₂_edited rest)
    · exact .cons (.refl scope) ih

theorem moves_updateTop {operation : Operation} {reply : Reply} {table : SymbolTable}
    (hpush : ∀ name discipline, operation ≠ .push name discipline)
    (hpop : ∀ handle, operation ≠ .pop handle) (h : s.current.Edited table) :
    s.Moves operation reply (s.updateTop fun scope => { scope with table }) := by
  unfold current top at h
  unfold updateTop
  cases hi : s.inner with
  | nil =>
    rw [hi] at h
    refine .edit hpush hpop rfl rfl ?_ ⟨rfl,rfl,h⟩ rfl
    rw [hi]
    exact .nil
  | cons scope rest =>
    rw [hi] at h
    refine .edit hpush hpop rfl rfl ?_ (.refl _) rfl
    rw [hi]
    exact .cons ⟨rfl,rfl,h⟩ (forall₂_edited rest)

theorem moves_of_push {name : String} {discipline : Discipline} {handle : ScopeHandle}
    (h : s.push name discipline = (.ok handle,s')) :
    s.Moves (.push name discipline) (.handle handle) s' := by
  unfold push at h
  split at h
  · cases h
  · next hnot =>
    cases h
    have hflat : s.scoping = .flat → s.inner = [] := by
      intro hs
      simpa [hs,isGlobal] using hnot
    have hmove : s.Moves (.push name discipline) _ _ := .push hflat
    simpa [fresh] using hmove

theorem moves_of_pop {handle : ScopeHandle} {table : SymbolTable}
    (h : s.pop handle = (.ok table,s')) : s.Moves (.pop handle) (.table table) s' := by
  unfold pop at h
  split at h
  · cases h
  · next scope rest hi =>
    split at h
    · next hmatch =>
      cases h
      obtain ⟨depth,id⟩ := handle
      obtain ⟨rfl,rfl⟩ := hmatch
      exact .pop hi
    · cases h

theorem moves_of_declare {symbol declared : Symbol} (h : s.declare symbol = (.ok declared,s')) :
    s.Moves (.declare symbol) (.symbol declared) s' := by
  rcases hd : s.current.declare symbol with ⟨result,table⟩
  rw [declare,hd] at h
  cases h
  exact moves_updateTop (by simp) (by simp) (SymbolTable.edited_of_declare hd)

theorem moves_of_declareGlobal {symbol declared : Symbol}
    (h : s.declareGlobal symbol = (.ok declared,s')) :
    s.Moves (.declareGlobal symbol) (.symbol declared) s' := by
  rcases hd : s.global.declare symbol with ⟨result,table⟩
  rw [declareGlobal,hd] at h
  cases h
  exact .edit (by simp) (by simp) rfl rfl (forall₂_edited _)
    ⟨rfl,rfl,SymbolTable.edited_of_declare hd⟩ rfl

theorem moves_remove (s : ScopeStack) (name : String) :
    s.Moves (.remove name) .done (s.remove name) := by
  have htop : s.remove name =
      s.updateTop fun scope => { scope with table := s.current.remove name } := by
    unfold remove updateTop current top
    cases s.inner <;> rfl
  rw [htop]
  exact moves_updateTop (by simp) (by simp) (.remove name)

theorem moves_of_share {name : String} {line : Line} {symbol : Symbol}
    (h : s.share name line = (.ok symbol,s')) : s.Moves (.share name line) (.symbol symbol) s' := by
  obtain ⟨scope,rest,_,hi,_,rfl⟩ := share_eq_ok h
  refine .edit (by simp) (by simp) rfl rfl ?_ (.refl _) rfl
  rw [hi]
  exact .cons (scope.edited_share _) (forall₂_edited rest)

theorem moves_touch (s : ScopeStack) (found : Symbol × Nat) (line : Line) :
    s.Moves (.touch found line) .done (s.touch found line) := by
  unfold touch
  split
  · exact .edit (by simp) (by simp) rfl rfl (forall₂_edited _) ⟨rfl,rfl,.touch _ line⟩ rfl
  · exact .edit (by simp) (by simp) rfl rfl (forall₂_touchAt _ line _ _) (.refl _) rfl

theorem exists_of_map {α β γ : Type} {x : Except Diagnostic α × γ} {f : α → β} {b : β} {c : γ}
    (h : x.map (Except.map f) id = (.ok b,c)) : ∃ a, x = (.ok a,c) ∧ f a = b := by
  rcases x with ⟨_ | a,c⟩ <;> cases h
  exact ⟨a,rfl,rfl⟩

theorem cautious_map {α β γ : Type} {x : Except Diagnostic α × γ} {c : γ} (h : Cautious x c)
    (f : α → β) : Cautious (x.map (Except.map f) id) c := by
  intro d c' hx
  rcases x with ⟨_ | _,_⟩ <;> cases hx
  exact h d _ rfl

theorem cautious_attempt (s : ScopeStack) (operation : Operation) :
    Cautious (s.attempt operation) s := by
  cases operation with
  | push name discipline => exact cautious_map (s.cautious_push name discipline) _
  | pop handle => exact cautious_map (s.cautious_pop handle) _
  | declare symbol => exact cautious_map (s.cautious_declare symbol) _
  | declareGlobal symbol => exact cautious_map (s.cautious_declareGlobal symbol) _
  | share name line => exact cautious_map (s.cautious_share name line) _
  | remove | touch =>
    intro d s' h
    cases h

theorem moves_of_attempt {operation : Operation} {reply : Reply}
    (h : s.attempt operation = (.ok reply,s')) : s.Moves operation reply s' := by
  cases operation with
  | push name discipline =>
    obtain ⟨_,hr,rfl⟩ := exists_of_map h
    exact moves_of_push hr
  | pop handle =>
    obtain ⟨_,hr,rfl⟩ := exists_of_map h
    exact moves_of_pop hr
  | declare symbol =>
    obtain ⟨_,hr,rfl⟩ := exists_of_map (x := s.declare symbol) h
    exact moves_of_declare hr
  | declareGlobal symbol =>
    obtain ⟨_,hr,rfl⟩ := exists_of_map (x := s.declareGlobal symbol) h
    exact moves_of_declareGlobal hr
  | remove name =>
    cases h
    exact moves_remove s name
  | share name line =>
    obtain ⟨_,hr,rfl⟩ := exists_of_map h
    exact moves_of_share hr
  | touch found line =>
    cases h
    exact moves_touch s found line

/-- What a successful operation leads to holds after an operation if it held before. -/
theorem perform_of_moves {P : ScopeStack → Prop} {operation : Operation} (hs : P s)
    (hstep : ∀ reply s', s.Moves operation reply s' → P s') : P (s.perform operation) := by
  unfold perform
  rcases h : s.attempt operation with ⟨d | reply,s'⟩
  · rw [s.cautious_attempt operation d s' h]
    exact hs
  · exact hstep reply s' (moves_of_attempt h)

theorem foldl_of_moves {P : ScopeStack → Prop} (hs : P s)
    (hstep : ∀ s operation reply s', P s → s.Moves operation reply s' → P s')
    (operations : List Operation) : P (operations.foldl perform s) :=
  List.foldlRecOn operations perform hs fun s hs operation _ =>
    perform_of_moves hs fun reply s' => hstep s operation reply s' hs

theorem after_of_moves {name : String} {caseSensitive : Bool} {scoping : Scoping}
    {P : ScopeStack → Prop} (hstart : P (start name caseSensitive scoping))
    (hstep : ∀ s operation reply s', P s → s.Moves operation reply s' → P s')
    (operations : List Operation) : P (after name caseSensitive scoping operations) :=
  foldl_of_moves hstart hstep operations

end

end ScopeStack

end StackCompiler
