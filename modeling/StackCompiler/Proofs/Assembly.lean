import Mathlib.Data.List.Forall2
import StackCompiler.Proofs.Frames

/-! How the routines of a unit come about.
A unit without diagnostics is assembled by steps that all succeed; for each finished routine the
state is known in which its body was taken up. -/
namespace StackCompiler

section pairs

variable {α β : Type} {R : α → β → Prop} {xs : List α} {ys : List β}

theorem rel_of_getElem? (h : List.Forall₂ R xs ys) {i : Nat} {x : α} {y : β} (hx : xs[i]? = some x)
    (hy : ys[i]? = some y) : R x y := by
  induction h generalizing i with
  | nil => simp at hx
  | cons hr _ ih =>
    cases i with
    | zero =>
      cases hx
      cases hy
      exact hr
    | succ i => exact ih hx hy

theorem exists_of_getElem? (h : List.Forall₂ R xs ys) {i : Nat} {x : α} (hx : xs[i]? = some x) :
    ∃ y, ys[i]? = some y ∧ R x y := by
  have hlt : i < ys.length := h.length_eq ▸ (List.getElem?_eq_some_iff.mp hx).1
  have hy := List.getElem?_eq_getElem hlt
  exact ⟨_,hy,rel_of_getElem? h hx hy⟩

theorem exists_zip_of_mem_right (h : List.Forall₂ R xs ys) {y : β} (hy : y ∈ ys) :
    ∃ x, (x,y) ∈ xs.zip ys ∧ R x y := by
  obtain ⟨i,hi⟩ := List.getElem?_of_mem hy
  obtain ⟨x,hx,hr⟩ := exists_of_getElem? h.flip hi
  exact ⟨x,List.mem_of_getElem? (List.getElem?_zip_eq_some.mpr ⟨hx,hi⟩),hr⟩

theorem exists_of_mem_right (h : List.Forall₂ R xs ys) {y : β} (hy : y ∈ ys) : ∃ x ∈ xs, R x y := by
  obtain ⟨x,hx,hr⟩ := exists_zip_of_mem_right h hy
  exact ⟨x,(List.of_mem_zip hx).1,hr⟩

theorem exists_of_mem_left (h : List.Forall₂ R xs ys) {x : α} (hx : x ∈ xs) : ∃ y ∈ ys, R x y :=
  exists_of_mem_right h.flip hx

end pairs

def SymbolTable.Distinct (t : SymbolTable) : Prop := (t.symbols.map Symbol.key).Nodup

theorem SymbolTable.Distinct.add {t : SymbolTable} (h : t.Distinct) {s : Symbol}
    (hs : t.lookup s.name = none) : SymbolTable.Distinct { t with symbols := t.symbols ++ [t.keyed s] } := by
  have hfree : t.normalize s.name ∉ t.symbols.map Symbol.key := by
    intro hmem
    obtain ⟨x,hx,hk⟩ := List.mem_map.mp hmem
    have := List.find?_eq_none.mp hs x hx
    simp [hk] at this
  simp only [Distinct,List.map_append,List.map_cons,List.map_nil]
  exact List.nodup_append.mpr ⟨h,by simp,by
    rintro a ha b hb rfl
    rw [List.mem_singleton] at hb
    rw [hb] at ha
    exact hfree ha⟩

namespace Lowering

open Assemble
open Lower (changes_of_gives)

def Progress.state (p : Progress) (frame : Frame) : State :=
  { scopes := p.scopes, frame, nextLabel := p.nextLabel, errors := p.errors }

def Progress.after (p : Progress) (s : State) : Progress :=
  { p with scopes := s.scopes, nextLabel := s.nextLabel, errors := s.errors }

def Progress.fail (p : Progress) (d : Diagnostic) : Progress :=
  { p with errors := p.errors ++ [d] }

def Progress.add (p : Progress) (rc : RoutineCode) : Progress :=
  { p with
    routines := p.routines ++ [rc]
    entryPoints := p.entryPoints ++ [(rc.name,p.routines.length)] }

section steps

variable {α : Type} {p p' : Progress}

theorem gives_record {d : Diagnostic} {u : Unit} :
    (record d).Gives p u p' ↔ p' = p.fail d := by
  constructor
  · intro h; cases h; rfl
  · rintro rfl; rfl

theorem gives_attempt {step : ScopeStack → Except Diagnostic α × ScopeStack} {a : Option α} :
    (attempt step).Gives p a p' ↔
      (∃ b scopes, step p.scopes = (.ok b,scopes) ∧ a = some b ∧ p' = { p with scopes }) ∨
      ∃ d scopes, step p.scopes = (.error d,scopes) ∧ a = none ∧
        p' = Progress.fail { p with scopes } d := by
  simp only [attempt,gives_bind,gives_get,gives_set]
  rcases hstep : step p.scopes with ⟨d | b,scopes⟩
  · simpa [hstep,gives_record] using And.comm
  · simp [hstep]

/-- A cautious step that fails only leaves a diagnostic behind. -/
theorem attempt_cases {step : ScopeStack → Except Diagnostic α × ScopeStack} {a : Option α}
    (hc : Cautious (step p.scopes) p.scopes) (h : (attempt step).Gives p a p') :
    (∃ b scopes, step p.scopes = (.ok b,scopes) ∧ a = some b ∧ p' = { p with scopes }) ∨
      ∃ d, step p.scopes = (.error d,p.scopes) ∧ a = none ∧ p' = p.fail d := by
  rcases gives_attempt.mp h with h | ⟨d,scopes,hstep,ha,rfl⟩
  · exact .inl h
  · obtain rfl := hc d scopes hstep
    exact .inr ⟨d,hstep,ha,rfl⟩

theorem attempt_ok {step : ScopeStack → Except Diagnostic α × ScopeStack} {a : Option α}
    (h : (attempt step).Gives p a p') (he : p'.errors = []) :
    ∃ b scopes, step p.scopes = (.ok b,scopes) ∧ a = some b ∧ p' = { p with scopes } := by
  rcases gives_attempt.mp h with h | ⟨d,_,_,_,rfl⟩
  · exact h
  · simp [Progress.fail] at he

theorem gives_keyOf {name key : String} :
    (keyOf name).Gives p key p' ↔ key = p.scopes.normalize name ∧ p' = p := by
  simp only [keyOf,gives_bind,gives_get,gives_pure]
  grind

theorem gives_body {frame : Frame} {step : Lower α} {a : α × Frame} :
    (body frame step).Gives p a p' ↔
      ∃ s, step.Gives (p.state frame) a.1 s ∧ a.2 = s.frame ∧ p' = p.after s := by
  obtain ⟨x,f⟩ := a
  have hgives : ∀ s, step.Gives (p.state frame) x s ↔ step.run (p.state frame) = (.ok x,s) :=
    fun _ => .rfl
  simp only [body,gives_bind,gives_get,hgives]
  rcases hrun : step.run (p.state frame) with ⟨_ | y,s⟩
  · constructor
    · rintro ⟨_,_,⟨rfl,rfl⟩,h⟩
      simp only [show step.run ⟨_,frame,_,_⟩ = _ from hrun,gives_bind,gives_throw,and_false,
        exists_false] at h
    · rintro ⟨s,hs,_⟩
      cases hs
  · constructor
    · rintro ⟨_,_,⟨rfl,rfl⟩,h⟩
      simp only [show step.run ⟨_,frame,_,_⟩ = _ from hrun,gives_bind,gives_set,gives_pure] at h
      obtain ⟨_,_,rfl,hx,rfl⟩ := h
      cases hx
      exact ⟨s,rfl,rfl,rfl⟩
    · rintro ⟨_,hs,rfl,rfl⟩
      cases hs
      refine ⟨p,p,⟨rfl,rfl⟩,?_⟩
      simp only [show step.run ⟨_,frame,_,_⟩ = _ from hrun,gives_bind,gives_set,gives_pure]
      exact ⟨(),_,rfl,trivial,rfl⟩

end steps

/-- The entry points are the names of the finished routines. -/
def Progress.Listed (p : Progress) : Prop :=
  p.entryPoints = p.routines.zipIdx.map fun r => (r.1.name,r.2)

theorem Progress.Listed.add {p : Progress} (h : p.Listed) (rc : RoutineCode) : (p.add rc).Listed := by
  change p.entryPoints ++ [(rc.name,p.routines.length)] = (p.routines ++ [rc]).zipIdx.map _
  rw [show p.entryPoints = _ from h,List.zipIdx_append,List.map_append,Nat.zero_add]
  rfl

theorem Progress.Listed.lookup_ne_none {p : Progress} (h : p.Listed) {name : String} :
    p.entryPoints.lookup name ≠ none ↔ ∃ x ∈ p.routines, x.name = name := by
  rw [Ne,List.lookup_eq_none_iff,h]
  constructor
  · intro hfound
    by_contra hnone
    refine hfound fun q hq => ?_
    obtain ⟨⟨x,i⟩,hx,rfl⟩ := List.mem_map.mp hq
    have hne : x.name ≠ name := fun he => hnone ⟨x,List.fst_mem_of_mem_zipIdx hx,he⟩
    simpa using hne.symm
  · rintro ⟨x,hx,rfl⟩ hnone
    obtain ⟨i,hi⟩ := List.getElem?_of_mem hx
    have hmem : (x,i) ∈ p.routines.zipIdx := List.mem_zipIdx_iff_getElem?.mpr hi
    simpa using hnone _ (List.mem_map_of_mem hmem)

/-- Diagnostics and finished routines are only added, and with a routine its entry point. -/
structure Progress.Grows (p p' : Progress) : Prop where
  errors : p.errors <+: p'.errors
  routines : p.routines <+: p'.routines
  listed : p.Listed → p'.Listed

namespace Progress.Grows

theorem refl (p : Progress) : p.Grows p := ⟨List.prefix_refl _,List.prefix_refl _,id⟩

theorem trans {p q r : Progress} (h₁ : p.Grows q) (h₂ : q.Grows r) : p.Grows r :=
  ⟨h₁.errors.trans h₂.errors,h₁.routines.trans h₂.routines,fun h => h₂.listed (h₁.listed h)⟩

theorem errors_nil {p q : Progress} (h : p.Grows q) (he : q.errors = []) : p.errors = [] := by
  have hp := h.errors
  rw [he] at hp
  exact List.prefix_nil.mp hp

end Progress.Grows

section finishing

variable {p p' : Progress} {r : Routine} {line : Line} {params mark : Nat} {frame : Frame}
  {step : Lower Code}

theorem added_or_recorded (p p' : Progress) (rc : RoutineCode) (d : Diagnostic) (u : Unit)
    (h : (if (p.entryPoints.lookup rc.name).isSome then record d
      else set (p.add rc) : Assemble Unit).Gives p u p') :
    p.entryPoints.lookup rc.name ≠ none ∧ p' = p.fail d ∨
      p.entryPoints.lookup rc.name = none ∧ p' = p.add rc := by
  rcases gives_ite.mp h with ⟨htaken,h⟩ | ⟨hnew,h⟩
  · exact .inl ⟨Option.isSome_iff_ne_none.mp htaken,gives_record.mp h⟩
  · exact .inr ⟨Option.not_isSome_iff_eq_none.mp hnew,gives_set.mp h⟩

/-- A routine is put into code and added, unless its entry name is taken. -/
theorem finish_cases {u : Unit} (h : (finish r line params mark frame step).Gives p u p') :
    ∃ code s, (bodyCode r step).Gives (p.state frame) code s ∧
      (p.entryPoints.lookup r.entry ≠ none ∧
          p' = (p.after s).fail ⟨line,.duplicateSymbol r.entry s.scopes.global.name⟩ ∨
        p.entryPoints.lookup r.entry = none ∧
        p' = (p.after s).add
          { name := r.entry, params, returns := r.returns, frame := s.frame, code }) := by
  simp only [finish,gives_bind,gives_body,gives_get] at h
  obtain ⟨⟨code,frame'⟩,_,⟨s,hs,hframe,rfl⟩,_,_,⟨rfl,rfl⟩,h⟩ := h
  simp only at hs hframe h
  subst hframe
  refine ⟨code,s,hs,?_⟩
  have hadd := added_or_recorded (p.after s) p'
    { name := r.entry, params, returns := r.returns, frame := s.frame, code }
    ⟨line,.duplicateSymbol r.entry s.scopes.global.name⟩ u
  rcases gives_ite.mp h with ⟨_,h⟩ | ⟨_,h⟩
  · split at h
    · simp at h
    · exact hadd h
  · exact hadd h

theorem grows_finish {u : Unit} (h : (finish r line params mark frame step).Gives p u p')
    (hs : ∀ s, step.Stays r s) : p.Grows p' := by
  obtain ⟨code,s,hb,h⟩ := finish_cases h
  have herrors : p.errors <+: s.errors :=
    (changes_of_gives hb (stays_bodyCode (hs _))).errors
  rcases h with ⟨_,rfl⟩ | ⟨_,rfl⟩
  · exact ⟨herrors.trans (List.prefix_append _ _),List.prefix_refl _,id⟩
  · exact ⟨herrors,List.prefix_append _ _,fun hp => Progress.Listed.add (p := p.after s) hp _⟩

/-- Without diagnostics the routine is added, under a new name. -/
theorem finish_ok {u : Unit} (h : (finish r line params mark frame step).Gives p u p')
    (he : p'.errors = []) :
    ∃ code s, (bodyCode r step).Gives (p.state frame) code s ∧ s.errors = [] ∧
      p.entryPoints.lookup r.entry = none ∧
      p' = (p.after s).add
        { name := r.entry, params, returns := r.returns, frame := s.frame, code } := by
  obtain ⟨code,s,hb,h⟩ := finish_cases h
  rcases h with ⟨_,rfl⟩ | ⟨hnew,rfl⟩
  · simp [Progress.fail] at he
  · exact ⟨code,s,hb,he,hnew,rfl⟩

end finishing

section declaring

variable {p p' : Progress}

theorem grows_attempt {α : Type} {step : ScopeStack → Except Diagnostic α × ScopeStack}
    {a : Option α} (h : (attempt step).Gives p a p') : p.Grows p' := by
  rcases gives_attempt.mp h with ⟨_,_,_,_,rfl⟩ | ⟨_,_,_,_,rfl⟩
  · exact ⟨List.prefix_refl _,List.prefix_refl _,id⟩
  · exact ⟨List.prefix_append _ _,List.prefix_refl _,id⟩

def Progress.declare (p : Progress) (symbols : List Symbol) : Progress :=
  { p with scopes := p.scopes.add symbols }

def Progress.number (p : Progress) (n : Nat) : Progress := { p with nextLabel := p.nextLabel + n }

/-- The symbols were not there before, and no two of them have the same key. -/
def Progress.Declares (p : Progress) (symbols : List Symbol) : Prop :=
  p.scopes.current.Distinct → (p.declare symbols).scopes.current.Distinct

theorem declares_nil (p : Progress) : p.Declares [] := by
  intro h
  simpa [Progress.declare] using h

theorem Progress.Declares.append {xs ys : List Symbol} (h₁ : p.Declares xs)
    (h₂ : (p.declare xs).Declares ys) : p.Declares (xs ++ ys) := by
  intro h
  have := h₂ (h₁ h)
  simpa [Progress.declare] using this

theorem declare_declare (p : Progress) (xs ys : List Symbol) :
    (p.declare xs).declare ys = p.declare (xs ++ ys) := by
  simp [Progress.declare]

theorem keyed_declare (p : Progress) (xs : List Symbol) :
    (p.declare xs).scopes.current.keyed = p.scopes.current.keyed := by
  funext s
  simp [Progress.declare,SymbolTable.keyed,SymbolTable.normalize]

theorem declare_ok {symbol : Symbol} {a : Option Symbol}
    (h : (attempt fun scopes => scopes.declare symbol).Gives p a p') (he : p'.errors = []) :
    a = some (p.scopes.current.keyed symbol) ∧ p' = p.declare [p.scopes.current.keyed symbol] ∧
      p.Declares [p.scopes.current.keyed symbol] := by
  obtain ⟨b,scopes,hd,rfl,rfl⟩ := attempt_ok h he
  obtain ⟨rfl,hl,rfl⟩ := ScopeStack.declare_eq_ok hd
  refine ⟨rfl,rfl,fun hdistinct => ?_⟩
  simpa [Progress.declare] using hdistinct.add hl

def paramFrame (t : SymbolTable) (frame : Frame) (params : List Param) : Frame :=
  params.foldl (fun f x => f.param (t.keyed x.symbol).key x.type) frame

theorem paramFrame_declare (p : Progress) (xs : List Symbol) :
    paramFrame (p.declare xs).scopes.current = paramFrame p.scopes.current := by
  funext frame params
  simp only [paramFrame,keyed_declare]

theorem grows_declareParams : ∀ (params : List Param) {frame frame' : Frame} {p p' : Progress},
    (declareParams frame params).Gives p frame' p' → p.Grows p'
  | [], _, _, _, _, h => by
    rw [declareParams] at h
    rw [(gives_pure.mp h).2]
    exact .refl _
  | x :: rest, _, _, _, _, h => by
    rw [declareParams,gives_bind] at h
    obtain ⟨declared,q,hd,h⟩ := h
    exact (grows_attempt hd).trans (grows_declareParams rest h)

theorem declareParams_ok : ∀ (params : List Param) {frame frame' : Frame} {p p' : Progress},
    (declareParams frame params).Gives p frame' p' → p'.errors = [] →
    frame' = paramFrame p.scopes.current frame params ∧
      p' = p.declare (params.map fun x => p.scopes.current.keyed x.symbol) ∧
      p.Declares (params.map fun x => p.scopes.current.keyed x.symbol)
  | [], _, _, p, _, h, _ => by
    rw [declareParams] at h
    obtain ⟨rfl,rfl⟩ := gives_pure.mp h
    exact ⟨rfl,by simp [Progress.declare],declares_nil _⟩
  | x :: rest, _, _, p, p', h, he => by
    rw [declareParams,gives_bind] at h
    obtain ⟨declared,q,hd,h⟩ := h
    have hq := (grows_declareParams rest h).errors_nil he
    obtain ⟨b,scopes,hstep,rfl,rfl⟩ := attempt_ok hd hq
    split at hstep
    · cases hstep
    · obtain ⟨rfl,hl,rfl⟩ := ScopeStack.declare_eq_ok hstep
      have hrest := declareParams_ok rest h he
      have hone : p.Declares [p.scopes.current.keyed x.symbol] := fun hdistinct => by
        simpa [Progress.declare] using hdistinct.add hl
      change _ = paramFrame (p.declare [p.scopes.current.keyed x.symbol]).scopes.current _ _ ∧
        _ = (p.declare _).declare (rest.map fun y => (p.declare _).scopes.current.keyed y.symbol) ∧
        (p.declare _).Declares (rest.map fun y => (p.declare _).scopes.current.keyed y.symbol)
        at hrest
      rw [paramFrame_declare,keyed_declare,declare_declare] at hrest
      exact ⟨hrest.1,hrest.2.1,hone.append hrest.2.2⟩

theorem grows_declareNested {parent : String} : ∀ (nested : List StackCompiler.Routine) {u : Unit}
    {p p' : Progress}, (declareNested parent nested).Gives p u p' → p.Grows p'
  | [], _, _, _, h => by
    rw [declareNested] at h
    rw [(gives_pure.mp h).2]
    exact .refl _
  | _ :: rest, _, _, _, h => by
    simp only [declareNested,gives_bind,gives_keyOf] at h
    obtain ⟨_,_,⟨rfl,rfl⟩,_,_,hd,h⟩ := h
    exact (grows_attempt hd).trans (grows_declareNested rest h)

def nestedSymbol (scopes : ScopeStack) (parent : String) (x : StackCompiler.Routine) : Symbol :=
  scopes.current.keyed
    { x.symbol with entry := some (nestedEntry parent (scopes.normalize x.name)) }

theorem nestedSymbol_declare (p : Progress) (xs : List Symbol) (parent : String) :
    nestedSymbol (p.declare xs).scopes parent = nestedSymbol p.scopes parent := by
  funext x
  simp only [nestedSymbol,keyed_declare]
  simp [Progress.declare]

theorem declareNested_ok {parent : String} : ∀ (nested : List StackCompiler.Routine) {u : Unit}
    {p p' : Progress}, (declareNested parent nested).Gives p u p' → p'.errors = [] →
    p' = p.declare (nested.map (nestedSymbol p.scopes parent)) ∧
      p.Declares (nested.map (nestedSymbol p.scopes parent))
  | [], _, _, _, h, _ => by
    rw [declareNested] at h
    rw [(gives_pure.mp h).2]
    exact ⟨by simp [Progress.declare],declares_nil _⟩
  | x :: rest, _, p, _, h, he => by
    simp only [declareNested,gives_bind,gives_keyOf] at h
    obtain ⟨_,_,⟨rfl,rfl⟩,_,q,hd,h⟩ := h
    have hq := (grows_declareNested rest h).errors_nil he
    obtain ⟨_,rfl,hone⟩ := declare_ok hd hq
    obtain ⟨rfl,hrest⟩ := declareNested_ok rest h he
    rw [nestedSymbol_declare] at hrest ⊢
    rw [declare_declare]
    exact ⟨rfl,hone.append hrest⟩

def labelNames (xs : List Stmt) : List (Line × String) :=
  xs.filterMap fun
    | .label line name => some (line,name)
    | _ => none

def labelSymbol (t : SymbolTable) (x : Line × String) : Symbol :=
  t.keyed { name := x.2, key := x.2, type := .scalar .label, cls := .label, line := x.1 }

theorem labelSymbol_declare (p : Progress) (xs : List Symbol) :
    labelSymbol (p.declare xs).scopes.current = labelSymbol p.scopes.current := by
  funext x
  simp only [labelSymbol,keyed_declare]

theorem declareLabels_label {line : Line} {name : String} {rest : List Stmt}
    {labels : List (String × Label)}
    (h : (declareLabels (.label line name :: rest)).Gives p labels p') :
    ∃ declared q, (attempt fun scopes => scopes.declare
        { name, key := name, type := .scalar .label, cls := .label, line }).Gives p declared q ∧
      (declared = none ∧ (declareLabels rest).Gives q labels p' ∨
        ∃ symbol more, declared = some symbol ∧
          (declareLabels rest).Gives (q.number 1) more p' ∧
          labels = (symbol.key,q.nextLabel) :: more) := by
  rw [declareLabels,gives_bind] at h
  obtain ⟨declared,q,hd,h⟩ := h
  refine ⟨declared,q,hd,?_⟩
  cases declared with
  | none => exact .inl ⟨rfl,h⟩
  | some symbol =>
    simp only [gives_bind,gives_get,gives_set,gives_pure] at h
    obtain ⟨_,_,⟨rfl,rfl⟩,_,_,rfl,more,_,h,rfl,rfl⟩ := h
    exact .inr ⟨symbol,more,rfl,h,rfl⟩

theorem declareLabels_other {x : Stmt} {rest : List Stmt} (hx : ∀ line name, x ≠ .label line name) :
    declareLabels (x :: rest) = declareLabels rest := by
  cases x <;> first | rfl | exact absurd rfl (hx _ _)

theorem grows_declareLabels : ∀ (xs : List Stmt) {labels : List (String × Label)} {p p' : Progress},
    (declareLabels xs).Gives p labels p' → p.Grows p' := by
  intro xs
  induction xs with
  | nil =>
    intro labels p p' h
    rw [declareLabels] at h
    rw [(gives_pure.mp h).2]
    exact .refl _
  | cons x rest ih =>
    intro labels p p' h
    by_cases hx : ∃ line name, x = .label line name
    · obtain ⟨line,name,rfl⟩ := hx
      obtain ⟨declared,q,hd,h⟩ := declareLabels_label h
      refine (grows_attempt hd).trans ?_
      rcases h with ⟨_,h⟩ | ⟨_,_,_,h,_⟩
      · exact ih h
      · have hq := ih h
        exact ⟨hq.errors,hq.routines,hq.listed⟩
    · rw [declareLabels_other fun line name he => hx ⟨line,name,he⟩] at h
      exact ih h

/-- Without diagnostics every label gets the next number, in the order of the statements. -/
theorem declareLabels_ok : ∀ (xs : List Stmt) {labels : List (String × Label)} {p p' : Progress},
    (declareLabels xs).Gives p labels p' → p'.errors = [] →
    p' = (p.declare ((labelNames xs).map (labelSymbol p.scopes.current))).number
        (labelNames xs).length ∧
      labels.map Prod.fst = (labelNames xs).map (fun x => (labelSymbol p.scopes.current x).key) ∧
      labels.map Prod.snd = List.range' p.nextLabel (labelNames xs).length ∧
      p.Declares ((labelNames xs).map (labelSymbol p.scopes.current)) := by
  intro xs
  induction xs with
  | nil =>
    intro labels p p' h _
    rw [declareLabels] at h
    obtain ⟨rfl,rfl⟩ := gives_pure.mp h
    exact ⟨by simp [Progress.declare,Progress.number,labelNames],rfl,rfl,declares_nil _⟩
  | cons x rest ih =>
    intro labels p p' h he
    by_cases hx : ∃ line name, x = .label line name
    · obtain ⟨line,name,rfl⟩ := hx
      obtain ⟨declared,q,hd,h⟩ := declareLabels_label h
      have hq : q.errors = [] := by
        rcases h with ⟨_,h⟩ | ⟨_,_,_,h,_⟩
        · exact (grows_declareLabels rest h).errors_nil he
        · exact (grows_declareLabels rest h).errors_nil he
      obtain ⟨rfl,rfl,hone⟩ : declared = some (labelSymbol p.scopes.current (line,name)) ∧
          q = p.declare [labelSymbol p.scopes.current (line,name)] ∧
          p.Declares [labelSymbol p.scopes.current (line,name)] := declare_ok hd hq
      rcases h with ⟨hn,_⟩ | ⟨symbol,more,hsome,hmore,rfl⟩
      · cases hn
      · obtain rfl := Option.some.inj hsome
        obtain ⟨hp,hkeys,hnumbers,hrest⟩ := ih hmore he
        have hsymbol : labelSymbol ((p.declare [labelSymbol p.scopes.current (line,name)]).number
            1).scopes.current = labelSymbol p.scopes.current := labelSymbol_declare p _
        have hnames : labelNames (.label line name :: rest) = (line,name) :: labelNames rest := rfl
        rw [hsymbol] at hp hkeys hrest
        rw [hnames]
        refine ⟨?_,?_,?_,hone.append hrest⟩
        · rw [hp]
          simp [Progress.declare,Progress.number,Nat.add_assoc,Nat.add_comm 1]
        · simp [hkeys]
        · simp [hnumbers,Progress.declare,Progress.number,List.range'_succ]
    · have hother : labelNames (x :: rest) = labelNames rest := by
        cases x <;> first | rfl | exact absurd ⟨_,_,rfl⟩ hx
      rw [declareLabels_other fun line name he => hx ⟨line,name,he⟩] at h
      rw [hother]
      exact ih h he

/-- The symbols of a routine's scope before its body: parameters, routines inside it, labels. -/
def bodySymbols (scopes : ScopeStack) (entry : String) (params : List Param)
    (nested : List StackCompiler.Routine) (body : List Stmt) : List Symbol :=
  params.map (fun x => scopes.current.keyed x.symbol) ++ nested.map (nestedSymbol scopes entry) ++
    (labelNames (Stmt.flattenAll body)).map (labelSymbol scopes.current)

theorem declarations_ok {entry : String} {params : List Param} {nested : List StackCompiler.Routine}
    {body : List Stmt} {frame : Frame} {u : Unit} {labels : List (String × Label)}
    {p₁ p₂ p₃ p₄ : Progress} (hparams : (declareParams [] params).Gives p₁ frame p₂)
    (hnested : (declareNested entry nested).Gives p₂ u p₃)
    (hlabels : (declareLabels (Stmt.flattenAll body)).Gives p₃ labels p₄) (he : p₄.errors = []) :
    frame = paramFrame p₁.scopes.current [] params ∧
      labels.map Prod.fst = (labelNames (Stmt.flattenAll body)).map
        (fun x => (labelSymbol p₁.scopes.current x).key) ∧
      labels.map Prod.snd =
        List.range' p₁.nextLabel (labelNames (Stmt.flattenAll body)).length ∧
      p₄ = (p₁.declare (bodySymbols p₁.scopes entry params nested body)).number
        (labelNames (Stmt.flattenAll body)).length ∧
      p₁.Declares (bodySymbols p₁.scopes entry params nested body) := by
  have he₃ := (grows_declareLabels _ hlabels).errors_nil he
  have he₂ := (grows_declareNested nested hnested).errors_nil he₃
  obtain ⟨hframe,rfl,hd₁⟩ := declareParams_ok params hparams he₂
  obtain ⟨hp₃,hd₂⟩ := declareNested_ok nested hnested he₃
  rw [nestedSymbol_declare] at hp₃ hd₂
  rw [declare_declare] at hp₃
  subst hp₃
  obtain ⟨hp₄,hkeys,hnumbers,hd₃⟩ := declareLabels_ok _ hlabels he
  rw [labelSymbol_declare] at hp₄ hkeys hd₃
  rw [declare_declare] at hp₄
  exact ⟨hframe,hkeys,hnumbers,hp₄,(hd₁.append hd₂).append hd₃⟩

end declaring

/-- A routine whose body is about to be put into code: the scope that was opened for it, and the
numbers of its labels. Everything declared there is new. -/
structure Prepared (language : Language) (entry : String) (x : StackCompiler.Routine)
    (p : Progress) where
  handle : ScopeHandle
  scopes : ScopeStack
  labels : List (String × Label)
  opened : p.scopes.push x.name x.discipline = (.ok handle,scopes)
  keys : labels.map Prod.fst =
    (labelNames (Stmt.flattenAll x.body)).map fun y => (labelSymbol scopes.current y).key
  numbers : labels.map Prod.snd =
    List.range' p.nextLabel (labelNames (Stmt.flattenAll x.body)).length
  distinct : (scopes.add (bodySymbols scopes entry x.params x.routines x.body)).current.Distinct

namespace Prepared

variable {language : Language} {entry : String} {x : StackCompiler.Routine} {p : Progress}

def routine (b : Prepared language entry x p) : Routine where
  language
  entry
  depth := b.handle.depth
  returns := x.returns
  resultName :=
    if language = .fortran ∧ x.returns ≠ .void then some (b.scopes.normalize x.name) else none
  labels := b.labels

def progress (b : Prepared language entry x p) : Progress :=
  { p with
    scopes := b.scopes.add (bodySymbols b.scopes entry x.params x.routines x.body)
    nextLabel := p.nextLabel + (labelNames (Stmt.flattenAll x.body)).length }

def start (b : Prepared language entry x p) : State :=
  b.progress.state (paramFrame b.scopes.current [] x.params)

def finished (_ : Prepared language entry x p) (frame : Frame) (code : Code) : RoutineCode :=
  { name := entry, params := x.params.length, returns := x.returns, frame, code }

end Prepared

theorem push_eq_ok {scopes scopes' : ScopeStack} {name : String} {discipline : Discipline}
    {handle : ScopeHandle} (h : scopes.push name discipline = (.ok handle,scopes')) :
    handle.depth = scopes.depth + 1 ∧ scopes'.depth = scopes.depth + 1 ∧
      scopes'.current = { name, caseSensitive := scopes.caseSensitive } ∧
      scopes'.outermost = scopes.outermost := by
  unfold ScopeStack.push at h
  split at h
  · cases h
  · cases h
    exact ⟨rfl,rfl,rfl,rfl⟩

/-- A routine that is put into code without diagnostics: its own code, then the routines inside it,
then its scope is closed. -/
theorem routine_ok {language : Language} {entry : String} {x : StackCompiler.Routine} {u : Unit}
    {p p' : Progress} (h : (routine language entry x).Gives p u p') (he : p'.errors = [])
    (hgrows : ∀ {u : Unit} {q q' : Progress},
      (routines language entry x.routines).Gives q u q' → q.Grows q') :
    ∃ (b : Prepared language entry x p) (code : Code) (s : State) (v : Unit) (q : Progress)
      (table : SymbolTable) (scopes : ScopeStack),
      (bodyCode b.routine (stmts b.routine x.body)).Gives b.start code s ∧ s.errors = [] ∧
      p.entryPoints.lookup entry = none ∧
      (routines language entry x.routines).Gives
        ((b.progress.after s).add (b.finished s.frame code)) v q ∧
      q.scopes.pop b.handle = (.ok table,scopes) ∧
      p' = { q with scopes, closed := q.closed ++ [table] } := by
  obtain ⟨name,discipline,params,returns,body,nested,line⟩ := x
  rw [routine,gives_bind] at h
  obtain ⟨opened,p₁,hopened,h⟩ := h
  cases opened with
  | none =>
    rcases gives_attempt.mp hopened with ⟨_,_,_,hsome,_⟩ | ⟨d,_,_,_,rfl⟩
    · cases hsome
    · obtain ⟨_,rfl⟩ := gives_pure.mp h
      simp [Progress.fail] at he
  | some handle =>
    simp only [gives_bind,gives_get,gives_keyOf] at h
    obtain ⟨_,_,⟨rfl,rfl⟩,_,_,⟨rfl,rfl⟩,frame,p₂,hparams,_,p₃,hnested,labels,p₄,hlabels,_,p₅,
      hfinish,v,_,hroutines,_,q,⟨rfl,rfl⟩,h⟩ := h
    rcases hpop : q.scopes.pop handle with ⟨d | table,scopes⟩
    · rw [hpop] at h
      simp only [gives_bind,gives_throw,and_false,exists_false] at h
    · rw [hpop] at h
      obtain rfl := gives_set.mp h
      have he₅ := (hgrows hroutines).errors_nil he
      have he₄ := (grows_finish hfinish (stays_stmts _ body)).errors_nil he₅
      have he₁ := ((grows_declareParams params hparams).trans
        ((grows_declareNested nested hnested).trans (grows_declareLabels _ hlabels))).errors_nil he₄
      obtain ⟨_,opened,hpush,hhandle,rfl⟩ := attempt_ok hopened he₁
      obtain rfl := Option.some.inj hhandle
      have hpush' : p.scopes.push name discipline = (.ok handle,opened) := by
        rcases hp : p.scopes.push name discipline with ⟨_ | _,_⟩ <;> rw [hp] at hpush <;> cases hpush
        rfl
      obtain ⟨rfl,hkeys,hnumbers,rfl,hdeclares⟩ :=
        declarations_ok hparams hnested hlabels he₄
      obtain ⟨code,s,hbody,hs,hnew,rfl⟩ := finish_ok hfinish he₅
      have hdistinct := hdeclares (by
        change opened.current.Distinct
        rw [(push_eq_ok hpush').2.2.1]
        exact List.nodup_nil)
      exact ⟨⟨handle,opened,labels,hpush',hkeys,hnumbers,hdistinct⟩,code,s,v,q,table,scopes,hbody,hs,
        hnew,hroutines,hpop,rfl⟩

mutual

theorem grows_routine (language : Language) : ∀ (x : StackCompiler.Routine) {entry : String}
    {u : Unit} {p p' : Progress}, (routine language entry x).Gives p u p' → p.Grows p'
  | ⟨name,discipline,params,returns,body,nested,line⟩, entry, u, p, p', h => by
    rw [routine,gives_bind] at h
    obtain ⟨opened,p₁,hopened,h⟩ := h
    refine (grows_attempt hopened).trans ?_
    cases opened with
    | none =>
      obtain ⟨_,rfl⟩ := gives_pure.mp h
      exact .refl _
    | some handle =>
      simp only [gives_bind,gives_get,gives_keyOf] at h
      obtain ⟨_,_,⟨rfl,rfl⟩,_,_,⟨rfl,rfl⟩,frame,p₂,hparams,_,p₃,hnested,labels,p₄,hlabels,_,p₅,
        hfinish,v,_,hroutines,_,q,⟨rfl,rfl⟩,h⟩ := h
      have hdeclared := (grows_declareParams params hparams).trans
        ((grows_declareNested nested hnested).trans (grows_declareLabels _ hlabels))
      have hrest := (grows_finish hfinish (stays_stmts _ body)).trans
        (grows_routines language nested hroutines)
      refine hdeclared.trans (hrest.trans ?_)
      split at h
      · simp only [gives_bind,gives_throw,and_false,exists_false] at h
      · rw [gives_set.mp h]
        exact ⟨List.prefix_refl _,List.prefix_refl _,id⟩

theorem grows_routines (language : Language) : ∀ (xs : List StackCompiler.Routine) {parent : String}
    {u : Unit} {p p' : Progress}, (routines language parent xs).Gives p u p' → p.Grows p'
  | [], _, _, _, _, h => by
    rw [routines] at h
    rw [(gives_pure.mp h).2]
    exact .refl _
  | x :: rest, _, _, _, _, h => by
    rw [routines] at h
    simp only [gives_bind,gives_keyOf] at h
    obtain ⟨_,_,⟨rfl,rfl⟩,_,q,hx,h⟩ := h
    exact (grows_routine language x hx).trans (grows_routines language rest h)

end

theorem grows_topLevel (language : Language) : ∀ (xs : List StackCompiler.Routine) {u : Unit}
    {p p' : Progress}, (topLevel language xs).Gives p u p' → p.Grows p'
  | [], _, _, _, h => by
    rw [topLevel] at h
    rw [(gives_pure.mp h).2]
    exact .refl _
  | x :: rest, _, _, _, h => by
    simp only [topLevel,gives_bind,gives_keyOf] at h
    obtain ⟨_,_,⟨rfl,rfl⟩,_,q,hx,h⟩ := h
    exact (grows_routine language x hx).trans (grows_topLevel language rest h)

section main

variable {p p' : Progress}

theorem grows_declareAll : ∀ (ds : List Declaration) {u : Unit} {p p' : Progress},
    (declareAll ds).Gives p u p' → p.Grows p'
  | [], _, _, _, h => by
    rw [declareAll] at h
    rw [(gives_pure.mp h).2]
    exact .refl _
  | _ :: rest, _, _, _, h => by
    rw [declareAll,gives_bind] at h
    obtain ⟨_,q,hd,h⟩ := h
    exact (grows_attempt hd).trans (grows_declareAll rest h)

def SymbolOf (t : SymbolTable) (d : Declaration) (x : Symbol) : Prop :=
  ∃ new, declared d = .ok new ∧ x = t.keyed new

theorem symbolOf_declare (p : Progress) (xs : List Symbol) :
    SymbolOf (p.declare xs).scopes.current = SymbolOf p.scopes.current := by
  funext d x
  simp only [SymbolOf,keyed_declare]

theorem declareAll_ok : ∀ (ds : List Declaration) {u : Unit} {p p' : Progress},
    (declareAll ds).Gives p u p' → p'.errors = [] →
    ∃ symbols, p' = p.declare symbols ∧ p.Declares symbols ∧
      List.Forall₂ (SymbolOf p.scopes.current) ds symbols
  | [], _, p, _, h, _ => by
    rw [declareAll] at h
    rw [(gives_pure.mp h).2]
    exact ⟨[],by simp [Progress.declare],declares_nil _,.nil⟩
  | d :: rest, _, p, _, h, he => by
    rw [declareAll,gives_bind] at h
    obtain ⟨_,q,hd,h⟩ := h
    have hq := (grows_declareAll rest h).errors_nil he
    obtain ⟨symbol,scopes,hdecl,_,rfl⟩ := attempt_ok hd hq
    obtain ⟨new,hnew,rfl,hl,rfl⟩ := declare_cases hdecl
    obtain ⟨symbols,rfl,hrest,hsymbols⟩ := declareAll_ok rest h he
    have hone : p.Declares [p.scopes.current.keyed new] := fun hdistinct => by
      simpa [Progress.declare] using hdistinct.add hl
    change List.Forall₂ (SymbolOf (p.declare [_]).scopes.current) _ _ at hsymbols
    rw [symbolOf_declare] at hsymbols
    exact ⟨p.scopes.current.keyed new :: symbols,declare_declare p _ _,hone.append hrest,
      .cons ⟨new,hnew,rfl⟩ hsymbols⟩

theorem grows_declareRoutines : ∀ (xs : List StackCompiler.Routine) {u : Unit} {p p' : Progress},
    (declareRoutines xs).Gives p u p' → p.Grows p'
  | [], _, _, _, h => by
    rw [declareRoutines] at h
    rw [(gives_pure.mp h).2]
    exact .refl _
  | _ :: rest, _, _, _, h => by
    simp only [declareRoutines,gives_bind,gives_keyOf] at h
    obtain ⟨_,_,⟨rfl,rfl⟩,_,q,hd,h⟩ := h
    exact (grows_attempt hd).trans (grows_declareRoutines rest h)

def routineSymbol (scopes : ScopeStack) (x : StackCompiler.Routine) : Symbol :=
  scopes.current.keyed { x.symbol with entry := some (scopes.normalize x.name) }

theorem routineSymbol_declare (p : Progress) (xs : List Symbol) :
    routineSymbol (p.declare xs).scopes = routineSymbol p.scopes := by
  funext x
  simp only [routineSymbol,keyed_declare]
  simp [Progress.declare]

theorem declareRoutines_ok : ∀ (xs : List StackCompiler.Routine) {u : Unit} {p p' : Progress},
    (declareRoutines xs).Gives p u p' → p'.errors = [] → p.scopes.depth = 0 →
    p' = p.declare (xs.map (routineSymbol p.scopes)) ∧
      p.Declares (xs.map (routineSymbol p.scopes))
  | [], _, p, _, h, _, _ => by
    rw [declareRoutines] at h
    rw [(gives_pure.mp h).2]
    exact ⟨by simp [Progress.declare],declares_nil _⟩
  | x :: rest, _, p, _, h, he, hz => by
    simp only [declareRoutines,gives_bind,gives_keyOf] at h
    obtain ⟨_,p,⟨rfl,rfl⟩,_,q,hd,h⟩ := h
    have hq := (grows_declareRoutines rest h).errors_nil he
    obtain ⟨_,scopes,hdecl,_,rfl⟩ := attempt_ok hd hq
    rw [ScopeStack.declareGlobal_eq_declare hz] at hdecl
    obtain ⟨rfl,hl,rfl⟩ := ScopeStack.declare_eq_ok hdecl
    have hone : p.Declares [routineSymbol p.scopes x] := fun hdistinct => by
      simpa [Progress.declare,routineSymbol] using hdistinct.add hl
    have hrest := declareRoutines_ok rest h he (by simpa using hz)
    change _ = (p.declare [routineSymbol p.scopes x]).declare (rest.map (routineSymbol
      (p.declare [routineSymbol p.scopes x]).scopes)) ∧ (p.declare [routineSymbol p.scopes x]).Declares
      (rest.map (routineSymbol (p.declare [routineSymbol p.scopes x]).scopes)) at hrest
    rw [routineSymbol_declare,declare_declare] at hrest
    exact ⟨hrest.1,hone.append hrest.2⟩

/-- The code of the main program makes the arrays of the outermost scope first. -/
def mainBody (r : Routine) (u : SourceUnit) : Lower Code := do
  let arrays ← allocateAll r u.globals
  let code ← stmts r u.main
  pure (arrays ++ code)

theorem stays_mainBody (r : Routine) (u : SourceUnit) (s : State) : (mainBody r u).Stays r s := by
  refine Lower.stays_bind (stays_allocateAll r u.globals s) fun _ t _ => ?_
  exact Lower.stays_bind (stays_stmts r u.main t) fun _ _ _ => Lower.stays_pure

/-- The main program before its body is put into code: everything of the outermost scope is
declared, and its labels have numbers. -/
structure PreparedMain (u : SourceUnit) (p : Progress) where
  labels : List (String × Label)
  keys : labels.map Prod.fst =
    (labelNames (Stmt.flattenAll u.main)).map fun y => (labelSymbol p.scopes.current y).key
  numbers : labels.map Prod.snd =
    List.range' p.nextLabel (labelNames (Stmt.flattenAll u.main)).length
  distinct : (p.scopes.add
    ((labelNames (Stmt.flattenAll u.main)).map (labelSymbol p.scopes.current))).current.Distinct

namespace PreparedMain

variable {u : SourceUnit}

def routine (b : PreparedMain u p) : Routine where
  language := u.language
  entry := p.scopes.normalize u.name
  depth := 0
  returns := .void
  labels := b.labels

def progress (_ : PreparedMain u p) : Progress :=
  (p.declare ((labelNames (Stmt.flattenAll u.main)).map (labelSymbol p.scopes.current))).number
    (labelNames (Stmt.flattenAll u.main)).length

def start (b : PreparedMain u p) : State := b.progress.state []

def finished (b : PreparedMain u p) (frame : Frame) (code : Code) : RoutineCode :=
  { name := b.routine.entry, params := 0, returns := .void, frame, code }

end PreparedMain

def Progress.initial (u : SourceUnit) (caseSensitive : Bool) : Progress :=
  { scopes := .start u.name caseSensitive u.language.scoping }

/-- A unit without diagnostics: its declarations, the main program, the routines. -/
theorem sourceUnit_ok {u : SourceUnit} {caseSensitive : Bool} {v : Unit}
    (h : (sourceUnit u).Gives (.initial u caseSensitive) v p') (he : p'.errors = []) :
    ∃ (symbols : List Symbol) (p : Progress) (b : PreparedMain u p) (code : Code) (s : State)
      (w : Unit),
      p = (Progress.initial u caseSensitive).declare (symbols ++
        u.routines.map (routineSymbol (Progress.initial u caseSensitive).scopes)) ∧
      List.Forall₂ (SymbolOf (Progress.initial u caseSensitive).scopes.current)
        (u.globals ++ mainDeclarations u.main) symbols ∧
      (bodyCode b.routine (mainBody b.routine u)).Gives b.start code s ∧ s.errors = [] ∧
      (topLevel u.language u.routines).Gives ((b.progress.after s).add (b.finished s.frame code)) w
        p' := by
  simp only [sourceUnit,gives_bind,gives_get,gives_keyOf] at h
  obtain ⟨_,p₁,hall,_,_,hroutines,_,_,⟨rfl,rfl⟩,_,p₂,⟨rfl,rfl⟩,labels,p₃,hlabels,_,p₄,hfinish,
    htop⟩ := h
  have he₄ := (grows_topLevel _ _ htop).errors_nil he
  have he₃ := (grows_finish hfinish (stays_mainBody _ u)).errors_nil he₄
  have he₂ := (grows_declareLabels _ hlabels).errors_nil he₃
  have he₁ := (grows_declareRoutines _ hroutines).errors_nil he₂
  obtain ⟨symbols,rfl,hd₁,hsymbols⟩ := declareAll_ok _ hall he₁
  have hz : (Progress.initial u caseSensitive).scopes.depth = 0 := rfl
  obtain ⟨hp₂,hd₂⟩ := declareRoutines_ok _ hroutines he₂ (by simpa [Progress.declare] using hz)
  rw [routineSymbol_declare] at hp₂ hd₂
  rw [declare_declare] at hp₂
  obtain ⟨rfl,hkeys,hnumbers,hd₃⟩ := declareLabels_ok _ hlabels he₃
  have hdistinct := hd₃ (by
    rw [hp₂]
    exact hd₁.append hd₂ List.nodup_nil)
  obtain ⟨code,s,hbody,hs,_,rfl⟩ := finish_ok hfinish he₄
  exact ⟨symbols,p₂,⟨labels,hkeys,hnumbers,hdistinct⟩,code,s,_,hp₂,hsymbols,hbody,hs,htop⟩

end main

end Lowering
end StackCompiler
