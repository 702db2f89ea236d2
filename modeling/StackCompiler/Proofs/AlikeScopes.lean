import Mathlib.Data.List.Forall2
import StackCompiler.Proofs.Bodies
import StackCompiler.Proofs.Respelling

/-! Scopes that give names the same meaning.
Two scope stacks are alike if every key leads to symbols that differ at most in their spelling and in
the line of their last reference. The order of the symbols does not matter, except that of the
variables. Every change of scopes keeps them alike, and fails in both or in neither; the failures then
have the same kind and line. -/
namespace StackCompiler

/-- The kind of a diagnostic and its line: what does not depend on how names are spelled. -/
def Diagnostic.gist (d : Diagnostic) : Line × Nat := (d.line,d.cause.ctorIdx)

theorem Cause.isFatal_eq (c : Cause) : c.isFatal = (c.ctorIdx == 2 || c.ctorIdx == 15) := by
  cases c <;> rfl

theorem Diagnostic.isFatal_of_gist {d e : Diagnostic} (h : e.gist = d.gist) :
    e.isFatal = d.isFatal := by
  rw [Diagnostic.isFatal,Diagnostic.isFatal,Cause.isFatal_eq,Cause.isFatal_eq,
    show e.cause.ctorIdx = d.cause.ctorIdx from congrArg Prod.snd h]

/-- Two steps both succeed, with related results, or fail with diagnostics of the same kind and line. -/
inductive Agree {α β : Type} (R : α → β → Prop) : Except Diagnostic α → Except Diagnostic β → Prop
  | ok {a : α} {b : β} (h : R a b) : Agree R (.ok a) (.ok b)
  | error {d e : Diagnostic} (h : e.gist = d.gist) : Agree R (.error d) (.error e)

namespace Agree

variable {α β α' β' : Type} {R : α → β → Prop} {S : α' → β' → Prop}

theorem map {f : α → α'} {g : β → β'} {x : Except Diagnostic α} {y : Except Diagnostic β}
    (h : Agree R x y) (hf : ∀ a b, R a b → S (f a) (g b)) : Agree S (x.map f) (y.map g) := by
  cases h with
  | ok h => exact .ok (hf _ _ h)
  | error h => exact .error h

theorem ite {p : Prop} [Decidable p] {x x' : Except Diagnostic α} {y y' : Except Diagnostic β}
    (h : Agree R x y) (h' : Agree R x' y') :
    Agree R (if p then x else x') (if p then y else y') := by
  by_cases hp : p
  · rwa [if_pos hp,if_pos hp]
  · rwa [if_neg hp,if_neg hp]

theorem refl (x : Except Diagnostic α) : Agree Eq x x := by
  cases x with
  | ok a => exact .ok rfl
  | error d => exact .error rfl

end Agree

structure AgreeIn {α β σ τ : Type} (R : α → β → Prop) (S : σ → τ → Prop)
    (x : Except Diagnostic α × σ) (y : Except Diagnostic β × τ) : Prop where
  result : Agree R x.1 y.1
  state : S x.2 y.2

namespace Symbol

/-- The symbol under its key, without the line of its last reference. -/
def bare (s : Symbol) : Symbol := { s with name := s.key, line := noLine }

theorem eq_of_bare {x y : Symbol} (h : y.bare = x.bare) :
    ∃ name line, y = { x with name, line } :=
  ⟨y.name,y.line,congrArg (fun z : Symbol => { z with name := y.name, line := y.line }) h⟩

/-- A symbol with another spelling of the same name, both yet to be stored. -/
structure Respells (rule : Bool) (x y : Symbol) : Prop where
  key : normalize rule y.name = normalize rule x.name
  rest : y = { x with name := y.name, key := y.key }

theorem Respells.line {rule : Bool} {x y : Symbol} (h : x.Respells rule y) : y.line = x.line := by
  rw [h.rest]

end Symbol

def SameFound (x y : Symbol × Nat) : Prop := ∃ name line, y = ({ x.1 with name, line },x.2)

theorem sameFound_of_bare {x y : Symbol × Nat}
    (h : Prod.map Symbol.bare id y = Prod.map Symbol.bare id x) : SameFound x y := by
  obtain ⟨x,depth⟩ := x
  obtain ⟨y,depth'⟩ := y
  obtain ⟨hbare,rfl⟩ := Prod.mk.inj h
  obtain ⟨name,line,rfl⟩ := Symbol.eq_of_bare hbare
  exact ⟨name,line,rfl⟩

theorem found_cases {x y : Option (Symbol × Nat)}
    (h : y.map (Prod.map Symbol.bare id) = x.map (Prod.map Symbol.bare id)) :
    x = none ∧ y = none ∨ ∃ a b, x = some a ∧ y = some b ∧ SameFound a b := by
  cases x with
  | none => exact .inl ⟨rfl,Option.map_eq_none_iff.mp h⟩
  | some a =>
    cases y with
    | none => cases h
    | some b => exact .inr ⟨a,b,rfl,rfl,sameFound_of_bare (Option.some.inj h)⟩

/-- Tables with the same rule for case in which every key leads to the same symbol, and with the same
variables. -/
structure SymbolTable.Alike (rule : Bool) (t t' : SymbolTable) : Prop where
  left : t.caseSensitive = rule
  right : t'.caseSensitive = rule
  found : ∀ key, (t'.get? key).map Symbol.bare = (t.get? key).map Symbol.bare
  globals : Lowering.globals t' = Lowering.globals t

namespace SymbolTable

theorem get?_forget (t : SymbolTable) (key : String) :
    (t.forget.get? key).map Symbol.bare = (t.get? key).map Symbol.bare := by
  have hfind : t.forget.get? key = (t.get? key).map Symbol.forget := List.find?_map
  rw [hfind,Option.map_map]
  rfl

namespace Alike

variable {rule : Bool} {t t' t'' : SymbolTable}

theorem symm (h : t.Alike rule t') : t'.Alike rule t :=
  ⟨h.right,h.left,fun key => (h.found key).symm,h.globals.symm⟩

theorem of_forget (h : t.Alike rule t') (ht : t''.forget = t.forget) : t''.Alike rule t' := by
  refine ⟨?_,h.right,fun key => ?_,?_⟩
  · change t''.forget.caseSensitive = rule
    rw [ht]
    exact h.left
  · rw [h.found,← get?_forget t'',ht,get?_forget]
  · rw [h.globals,← Lowering.globals_forget t'',ht,Lowering.globals_forget]

theorem normalize_left (h : t.Alike rule t') (name : String) :
    t.normalize name = StackCompiler.normalize rule name := by
  rw [SymbolTable.normalize,h.left]

theorem lookup (h : t.Alike rule t') {name name' : String}
    (hname : StackCompiler.normalize rule name' = StackCompiler.normalize rule name) :
    (t'.lookup name').map Symbol.bare = (t.lookup name).map Symbol.bare := by
  rw [SymbolTable.lookup,SymbolTable.lookup,h.normalize_left,h.symm.normalize_left,hname]
  exact h.found _

/-- Tables stay alike when they get one more symbol each, the same up to spelling and line. -/
theorem add (h : t.Alike rule t') {x y : Symbol} (hxy : y.bare = x.bare) :
    Alike rule { t with symbols := t.symbols ++ [x] } { t' with symbols := t'.symbols ++ [y] } := by
  obtain ⟨name,line,rfl⟩ := Symbol.eq_of_bare hxy
  refine ⟨h.left,h.right,fun key => ?_,?_⟩
  · have hlast : ([{ x with name, line }].find? (·.key == key)).map Symbol.bare =
        ([x].find? (·.key == key)).map Symbol.bare := by
      cases hk : x.key == key with
      | true => simp only [List.find?_cons,hk]; rfl
      | false => simp only [List.find?_cons,hk]
    have hfirst := h.found key
    unfold get? at hfirst ⊢
    rw [List.find?_append,List.find?_append]
    cases hx : t.symbols.find? (·.key == key) <;> cases hy : t'.symbols.find? (·.key == key) <;>
      rw [hx,hy] at hfirst
    · simpa using hlast
    · cases hfirst
    · cases hfirst
    · simpa using hfirst
  · have hglobals := h.globals
    unfold Lowering.globals at hglobals ⊢
    rw [List.filter_append,List.filter_append,List.map_append,List.map_append,hglobals]
    congr 1
    by_cases hc : x.cls = .variable <;> simp [hc]

theorem keyed (h : t.Alike rule t') {x y : Symbol} (hxy : x.Respells rule y) :
    (t'.keyed y).bare = (t.keyed x).bare := by
  have hkey : t'.normalize y.name = t.normalize x.name := by
    rw [h.normalize_left,h.symm.normalize_left,hxy.key]
  unfold SymbolTable.keyed Symbol.bare
  rw [hkey,hxy.rest]

theorem declare (h : t.Alike rule t') {x y : Symbol} (hxy : x.Respells rule y) :
    AgreeIn (fun a b => b.bare = a.bare) (Alike rule) (t.declare x) (t'.declare y) := by
  have hlookup := h.lookup hxy.key
  unfold SymbolTable.declare
  cases hx : t.lookup x.name <;> cases hy : t'.lookup y.name <;> rw [hx,hy] at hlookup
  · exact ⟨.ok (h.keyed hxy),h.add (h.keyed hxy)⟩
  · cases hlookup
  · cases hlookup
  · exact ⟨.error (Prod.ext hxy.line rfl),h⟩

end Alike
end SymbolTable

/-- Scopes that hold and hide the same. -/
structure Scope.Alike (rule : Bool) (s s' : Scope) : Prop where
  table : s.table.Alike rule s'.table
  discipline : s'.discipline = s.discipline
  imported : s'.imported = s.imported

namespace Scope.Alike

variable {rule : Bool} {s s' s'' : Scope}

theorem symm (h : s.Alike rule s') : s'.Alike rule s :=
  ⟨h.table.symm,h.discipline.symm,h.imported.symm⟩

theorem of_forget (h : s.Alike rule s') (hs : s''.forget = s.forget) : s''.Alike rule s' := by
  refine ⟨h.table.of_forget (congrArg Scope.table hs),?_,?_⟩
  · change s'.discipline = s''.forget.discipline
    rw [hs]
    exact h.discipline
  · change s'.imported = s''.forget.imported
    rw [hs]
    exact h.imported

theorem hides (h : s.Alike rule s') (key : String) : s'.hides key = s.hides key := by
  rw [Scope.hides,Scope.hides,h.discipline,h.imported]

theorem share (h : s.Alike rule s') (key : String) : (s.share key).Alike rule (s'.share key) := by
  unfold Scope.share
  rw [h.imported]
  split
  · exact h
  · exact ⟨h.table,h.discipline,rfl⟩

end Scope.Alike

/-- Scope stacks that give names the same meaning. -/
structure ScopeStack.Alike (rule : Bool) (s s' : ScopeStack) : Prop where
  inner : List.Forall₂ (Scope.Alike rule) s.inner s'.inner
  outermost : s.outermost.Alike rule s'.outermost
  scoping : s'.scoping = s.scoping

namespace ScopeStack

theorem find_alike {rule : Bool} {scopes scopes' : List Scope}
    (h : List.Forall₂ (Scope.Alike rule) scopes scopes') (key : String) :
    (find key scopes').map (Prod.map Symbol.bare id) =
      (find key scopes).map (Prod.map Symbol.bare id) := by
  induction h with
  | nil => rfl
  | @cons scope scope' rest rest' hscope hrest ih =>
    have hlookup := hscope.table.lookup (rfl : StackCompiler.normalize rule key = _)
    rw [find,find,hscope.hides,hrest.length_eq]
    cases hx : scope.table.lookup key <;> cases hy : scope'.table.lookup key <;> rw [hx,hy] at hlookup
    · simp only
      split
      · rfl
      · exact ih
    · cases hlookup
    · cases hlookup
    · simpa using hlookup

theorem findRoutine_alike {rule : Bool} {scopes scopes' : List Scope}
    (h : List.Forall₂ (Scope.Alike rule) scopes scopes') (key : String) :
    (findRoutine key scopes').map (Prod.map Symbol.bare id) =
      (findRoutine key scopes).map (Prod.map Symbol.bare id) := by
  induction h with
  | nil => rfl
  | @cons scope scope' rest rest' hscope hrest ih =>
    have hlookup := hscope.table.lookup (rfl : StackCompiler.normalize rule key = _)
    have hfilter : ((scope'.table.lookup key).filter Symbol.isRoutine).map Symbol.bare =
        ((scope.table.lookup key).filter Symbol.isRoutine).map Symbol.bare := by
      have hbare : ∀ x : Option Symbol, (x.filter Symbol.isRoutine).map Symbol.bare =
          (x.map Symbol.bare).filter Symbol.isRoutine := by
        intro x
        cases x with
        | none => rfl
        | some symbol =>
          have hsame : symbol.bare.isRoutine = symbol.isRoutine := rfl
          cases hr : symbol.isRoutine <;> simp [Option.filter,hsame,hr]
      rw [hbare,hbare,hlookup]
    rw [findRoutine,findRoutine,hrest.length_eq]
    cases hx : (scope.table.lookup key).filter Symbol.isRoutine <;>
      cases hy : (scope'.table.lookup key).filter Symbol.isRoutine <;> rw [hx,hy] at hfilter
    · exact ih
    · cases hfilter
    · cases hfilter
    · simpa using hfilter

theorem alike_of_forget {rule : Bool} {scopes scopes' scopes'' : List Scope}
    (h : List.Forall₂ (Scope.Alike rule) scopes scopes')
    (hs : scopes''.map Scope.forget = scopes.map Scope.forget) :
    List.Forall₂ (Scope.Alike rule) scopes'' scopes' := by
  induction h generalizing scopes'' with
  | nil =>
    rw [List.map_eq_nil_iff.mp hs]
    exact .nil
  | cons hscope _ ih =>
    obtain ⟨x,rest,rfl,hx,hrest⟩ := List.map_eq_cons_iff.mp hs
    exact .cons (hscope.of_forget hx) (ih hrest)

namespace Alike

variable {rule : Bool} {s s' s'' : ScopeStack} {name name' : String}

theorem symm (h : s.Alike rule s') : s'.Alike rule s :=
  ⟨(h.inner.imp fun _ _ hx => hx.symm).flip,h.outermost.symm,h.scoping.symm⟩

theorem of_forget (h : s.Alike rule s') (hs : s''.forget = s.forget) : s''.Alike rule s' := by
  refine ⟨alike_of_forget h.inner (congrArg ScopeStack.inner hs),
    h.outermost.of_forget (congrArg ScopeStack.outermost hs),?_⟩
  change s'.scoping = s''.forget.scoping
  rw [hs]
  exact h.scoping

theorem touch (h : s.Alike rule s') (found found' : Symbol × Nat) (line line' : Line) :
    (s.touch found line).Alike rule (s'.touch found' line') :=
  ((h.of_forget (forget_touch s _ _)).symm.of_forget (forget_touch s' _ _)).symm

theorem normalize_left (h : s.Alike rule s') (name : String) :
    s.normalize name = StackCompiler.normalize rule name :=
  h.outermost.table.normalize_left name

theorem scopes (h : s.Alike rule s') : List.Forall₂ (Scope.Alike rule) s.scopes s'.scopes :=
  List.rel_append h.inner (.cons h.outermost .nil)

theorem depth (h : s.Alike rule s') : s'.depth = s.depth := h.inner.length_eq.symm

theorem top (h : s.Alike rule s') : s.top.Alike rule s'.top := by
  have hinner := h.inner
  unfold ScopeStack.top
  cases hinner' : s.inner <;> cases hinner'' : s'.inner <;> rw [hinner',hinner''] at hinner
  · exact h.outermost
  · cases hinner
  · cases hinner
  · cases hinner with
    | cons hscope _ => exact hscope

theorem updateTop (h : s.Alike rule s') {f g : Scope → Scope}
    (hfg : (f s.top).Alike rule (g s'.top)) : (s.updateTop f).Alike rule (s'.updateTop g) := by
  have hinner := h.inner
  unfold ScopeStack.top at hfg
  unfold ScopeStack.updateTop
  cases hinner' : s.inner <;> cases hinner'' : s'.inner <;>
    rw [hinner',hinner''] at hinner <;> rw [hinner',hinner''] at hfg
  · exact ⟨.nil,hfg,h.scoping⟩
  · cases hinner
  · cases hinner
  · cases hinner with
    | cons _ hrest => exact ⟨.cons hfg hrest,h.outermost,h.scoping⟩

section names

variable (h : s.Alike rule s')
  (hname : StackCompiler.normalize rule name' = StackCompiler.normalize rule name)

include h hname

theorem normalize : s'.normalize name' = s.normalize name := by
  rw [h.normalize_left,h.symm.normalize_left,hname]

theorem resolve : (s'.resolve name').map (Prod.map Symbol.bare id) =
    (s.resolve name).map (Prod.map Symbol.bare id) := by
  rw [ScopeStack.resolve,ScopeStack.resolve,h.normalize hname]
  exact find_alike h.scopes _

theorem resolveRoutine : (s'.resolveRoutine name').map (Prod.map Symbol.bare id) =
    (s.resolveRoutine name).map (Prod.map Symbol.bare id) := by
  have hresolve := h.resolve hname
  rw [ScopeStack.resolveRoutine,ScopeStack.resolveRoutine,h.normalize hname]
  rcases found_cases hresolve with ⟨hx,hy⟩ | ⟨a,b,hx,hy,_⟩
  · rw [hx,hy]
    exact findRoutine_alike h.scopes _
  · rw [hx,hy] at hresolve ⊢
    exact hresolve

theorem share (line : Line) :
    AgreeIn (fun _ _ => True) (Alike rule) (s.share name line) (s'.share name' line) := by
  have hinner := h.inner
  unfold ScopeStack.share
  simp only [h.normalize hname]
  cases hs : s.inner <;> cases hs' : s'.inner <;> rw [hs,hs'] at hinner
  · exact ⟨.error rfl,h⟩
  · cases hinner
  · cases hinner
  · cases hinner with
    | cons hscope hrest =>
      have hfind := find_alike (List.rel_append hrest (.cons h.outermost .nil)) (s.normalize name)
      rcases found_cases hfind with ⟨hx,hy⟩ | ⟨a,b,hx,hy,_⟩
      · simp only [hx,hy]
        exact ⟨.error rfl,h⟩
      · simp only [hx,hy]
        exact ⟨.ok trivial,.cons (hscope.share _) hrest,h.outermost,h.scoping⟩

end names

section changes

variable (h : s.Alike rule s')

include h

theorem declare {x y : Symbol} (hxy : x.Respells rule y) :
    AgreeIn (fun a b => b.bare = a.bare) (Alike rule) (s.declare x) (s'.declare y) := by
  have htable := h.top.table.declare hxy
  refine ⟨htable.result,?_⟩
  change Alike rule (s.updateTop fun scope => { scope with table := (s.current.declare x).2 })
    (s'.updateTop fun scope => { scope with table := (s'.current.declare y).2 })
  apply h.updateTop
  exact ⟨htable.state,h.top.discipline,h.top.imported⟩

theorem declareGlobal {x y : Symbol} (hxy : x.Respells rule y) :
    AgreeIn (fun a b => b.bare = a.bare) (Alike rule) (s.declareGlobal x) (s'.declareGlobal y) := by
  have htable := h.outermost.table.declare hxy
  exact ⟨htable.result,h.inner,⟨htable.state,h.outermost.discipline,h.outermost.imported⟩,h.scoping⟩

/-- A scope is opened in both or in neither, whatever the names of the scopes are. -/
theorem push (name name' : String) (discipline : Discipline) :
    AgreeIn (fun a b => b.depth = a.depth) (Alike rule) (s.push name discipline)
      (s'.push name' discipline) := by
  have hglobal : s'.isGlobal = s.isGlobal := by
    rw [isGlobal,isGlobal,Bool.eq_iff_iff,List.isEmpty_iff_length_eq_zero,
      List.isEmpty_iff_length_eq_zero,h.inner.length_eq]
  unfold ScopeStack.push
  rw [h.scoping,hglobal]
  split
  · exact ⟨.error rfl,h⟩
  · refine ⟨.ok (congrArg (· + 1) h.depth),.cons ⟨⟨?_,?_,fun _ => rfl,rfl⟩,rfl,rfl⟩ h.inner,h.outermost,
      rfl⟩
    · exact h.outermost.table.left
    · exact h.outermost.table.right

theorem pop {handle handle' : ScopeHandle} {table table' : SymbolTable} {t t' : ScopeStack}
    (hs : s.pop handle = (.ok table,t)) (hs' : s'.pop handle' = (.ok table',t')) :
    t.Alike rule t' := by
  have hinner := h.inner
  unfold ScopeStack.pop at hs hs'
  split at hs
  · cases hs
  · next scope rest hi =>
    split at hs'
    · cases hs'
    · next scope' rest' hi' =>
      split at hs <;> cases hs
      split at hs' <;> cases hs'
      rw [hi,hi'] at hinner
      cases hinner with
      | cons _ hrest => exact ⟨hrest,h.outermost,h.scoping⟩

end changes

end Alike
end ScopeStack
end StackCompiler
