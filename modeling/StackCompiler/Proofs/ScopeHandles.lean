import StackCompiler.Proofs.ScopeRuns

/-! The handles of the scopes that operations open and close.
A handle closes its scope only while that scope is the innermost, hence once at most and in the
reverse order of opening. The outermost scope always stays. -/
namespace StackCompiler
namespace ScopeStack

/-- Scopes with what became of the handles: all that were given out, those whose scopes are open,
innermost first, and those that have closed their scopes. -/
structure Session where
  scopes : ScopeStack
  issued : List ScopeHandle := []
  opened : List ScopeHandle := []
  closed : List ScopeHandle := []

namespace Session

def record (r : Session) (scopes : ScopeStack) : Operation → Reply → Session
  | .push .., .handle handle =>
    { r with scopes, issued := handle :: r.issued, opened := handle :: r.opened }
  | .pop handle, _ => { r with scopes, opened := r.opened.tail, closed := handle :: r.closed }
  | _, _ => { r with scopes }

def perform (r : Session) (operation : Operation) : Session :=
  match r.scopes.attempt operation with
  | (.ok reply,scopes) => r.record scopes operation reply
  | (.error _,scopes) => { r with scopes }

def run (name : String) (caseSensitive : Bool) (scoping : Scoping) (operations : List Operation) :
    Session :=
  operations.foldl perform { scopes := start name caseSensitive scoping }

end Session

def handles : List Scope → List ScopeHandle
  | [] => []
  | scope :: rest => ⟨rest.length + 1,scope.id⟩ :: handles rest

section

variable {s s' : ScopeStack} {operation : Operation} {reply : Reply}

theorem ids_handles (scopes : List Scope) :
    (handles scopes).map ScopeHandle.id = scopes.map Scope.id := by
  induction scopes with
  | nil => rfl
  | cons scope rest ih => rw [handles,List.map_cons,List.map_cons,ih]

theorem handles_edited {xs ys : List Scope} (h : List.Forall₂ Scope.Edited xs ys) :
    handles ys = handles xs := by
  induction h with
  | nil => rfl
  | cons hedited hrest ih => rw [handles,handles,ih,hedited.id,hrest.length_eq]

theorem pop_isOk_iff (s : ScopeStack) (handle : ScopeHandle) :
    (s.pop handle).1.isOk = true ↔ (handles s.inner).head? = some handle := by
  unfold pop
  cases hi : s.inner with
  | nil => simp [handles,Except.isOk,Except.toBool]
  | cons scope rest =>
    have hdepth : s.depth = rest.length + 1 := by rw [depth,hi,List.length_cons]
    obtain ⟨depth,id⟩ := handle
    simp only [handles,List.head?_cons,Option.some.injEq,ScopeHandle.mk.injEq,hdepth]
    split
    · next hmatch => exact iff_of_true rfl ⟨hmatch.1.symm,hmatch.2.symm⟩
    · next hmatch =>
      refine iff_of_false Bool.false_ne_true fun h => hmatch ⟨h.1.symm,h.2.symm⟩

/-- Closing gives the table of the innermost scope and leaves the scopes around it. -/
theorem pop_top {handle : ScopeHandle} {table : SymbolTable} (h : s.pop handle = (.ok table,s')) :
    table = s.current ∧ s'.scopes = s.scopes.tail := by
  unfold pop at h
  unfold current top scopes
  split at h
  · cases h
  · next scope rest hi =>
    rw [hi]
    split at h
    · cases h
      exact ⟨rfl,rfl⟩
    · cases h

/-- The outermost scope keeps its number, name and case rule and hides nothing. -/
structure Rooted (name : String) (caseSensitive : Bool) (outermost : Scope) : Prop where
  id : outermost.id = 0
  discipline : outermost.discipline = .opened
  imported : outermost.imported = []
  name : outermost.table.name = name
  caseSensitive : outermost.table.caseSensitive = caseSensitive

/-- Under flat scoping at most one scope is open besides the outermost, and it hides nothing. -/
structure Layered (scoping : Scoping) (s : ScopeStack) : Prop where
  rule : s.scoping = scoping
  depth : scoping = .flat → s.inner.length ≤ 1
  opened : scoping = .flat → ∀ scope ∈ s.inner, scope.discipline = .opened

theorem rooted_moves {name : String} {caseSensitive : Bool} (h : Rooted name caseSensitive s.outermost)
    (hm : s.Moves operation reply s') : Rooted name caseSensitive s'.outermost := by
  cases hm with
  | push => exact h
  | pop => exact h
  | edit _ _ _ _ _ houter himported =>
    exact ⟨houter.id.trans h.id,houter.discipline.trans h.discipline,himported.trans h.imported,
      houter.table.name.trans h.name,houter.table.caseSensitive.trans h.caseSensitive⟩

theorem layered_moves {scoping : Scoping} (h : s.Layered scoping) (hm : s.Moves operation reply s') :
    s'.Layered scoping := by
  cases hm with
  | push hflat =>
    refine ⟨h.rule,fun hs => ?_,fun hs scope hscope => ?_⟩
    · rw [hflat (h.rule.trans hs)]
      exact Nat.le_refl 1
    · rw [hflat (h.rule.trans hs),List.mem_singleton] at hscope
      rw [hscope,fresh]
      exact if_pos (h.rule.trans hs)
  | pop hinner =>
    refine ⟨h.rule,fun hs => ?_,fun hs scope hscope => h.opened hs scope ?_⟩
    · have hle := h.depth hs
      rw [hinner,List.length_cons] at hle
      exact Nat.le_of_succ_le hle
    · rw [hinner]
      exact List.mem_cons_of_mem _ hscope
  | edit _ _ hscoping _ hinner =>
    refine ⟨hscoping.trans h.rule,fun hs => hinner.length_eq ▸ h.depth hs,fun hs scope hscope => ?_⟩
    obtain ⟨old,hold,hedited⟩ := exists_of_mem_right hinner hscope
    exact hedited.discipline.trans (h.opened hs old hold)

end

namespace Session

/-- Handles are numbered in the order of their issue, those of open scopes stand by their scopes, and
the others have closed theirs. -/
structure Accounted (r : Session) : Prop where
  opened : r.opened = handles r.scopes.inner
  numbers : ∀ handle ∈ r.issued, 0 < handle.id ∧ handle.id < r.scopes.nextId
  once : (r.issued.map ScopeHandle.id).Nodup
  parted : (r.closed ++ r.opened).Perm r.issued
  positive : 0 < r.scopes.nextId

variable {r : Session}

theorem accounted_start (name : String) (caseSensitive : Bool) (scoping : Scoping) :
    Accounted { scopes := start name caseSensitive scoping } :=
  ⟨rfl,by simp,List.nodup_nil,.refl _,Nat.one_pos⟩

theorem Accounted.record (h : r.Accounted) {operation : Operation} {reply : Reply} {s : ScopeStack}
    (hm : r.scopes.Moves operation reply s) : (r.record s operation reply).Accounted := by
  cases hm with
  | push =>
    have hnew : r.scopes.nextId ∉ r.issued.map ScopeHandle.id := by
      intro hmem
      obtain ⟨handle,hhandle,hid⟩ := List.mem_map.mp hmem
      have hlt := (h.numbers handle hhandle).2
      omega
    refine ⟨?_,fun handle hhandle => ?_,List.nodup_cons.mpr ⟨hnew,h.once⟩,?_,Nat.succ_pos _⟩
    · change (_ :: r.opened) = _
      rw [h.opened]
      rfl
    · rcases List.mem_cons.mp hhandle with rfl | hhandle
      · exact ⟨h.positive,Nat.lt_succ_self _⟩
      · obtain ⟨hpos,hlt⟩ := h.numbers handle hhandle
        exact ⟨hpos,Nat.lt_succ_of_lt hlt⟩
    · exact List.perm_middle.trans (h.parted.cons _)
  | @pop scope rest hinner =>
    have hopened : r.opened = ⟨r.scopes.depth,scope.id⟩ :: handles rest := by
      rw [h.opened,hinner,handles,depth,hinner,List.length_cons]
    refine ⟨?_,h.numbers,h.once,?_,h.positive⟩
    · change r.opened.tail = handles rest
      rw [hopened,List.tail_cons]
    · change ((_ :: r.closed) ++ r.opened.tail).Perm r.issued
      rw [hopened,List.tail_cons]
      refine (List.perm_middle.symm.trans ?_).trans h.parted
      rw [hopened]
  | edit hpush hpop _ hnext hinner =>
    have hrecord : r.record s operation reply = { r with scopes := s } := by
      unfold Session.record
      split
      · next name discipline _ => exact absurd rfl (hpush name discipline)
      · next handle => exact absurd rfl (hpop _)
      · rfl
    rw [hrecord]
    refine ⟨h.opened.trans (handles_edited hinner).symm,fun handle hhandle => ?_,h.once,h.parted,?_⟩
    · rw [hnext]
      exact h.numbers handle hhandle
    · change 0 < s.nextId
      rw [hnext]
      exact h.positive

theorem Accounted.nodup_ids (h : r.Accounted) (hroot : r.scopes.outermost.id = 0) :
    (r.scopes.scopes.map Scope.id).Nodup := by
  have hinner : r.opened.map ScopeHandle.id = r.scopes.inner.map Scope.id := by
    rw [h.opened,ids_handles]
  have hall : ((r.closed ++ r.opened).map ScopeHandle.id).Nodup :=
    (h.parted.map ScopeHandle.id).nodup_iff.mpr h.once
  rw [List.map_append,hinner] at hall
  rw [ScopeStack.scopes,List.map_append,List.map_cons,List.map_nil,hroot]
  refine List.nodup_append.mpr ⟨(List.nodup_append.mp hall).2.1,by simp,?_⟩
  rintro n hn m hm rfl
  obtain rfl := List.mem_singleton.mp hm
  rw [← hinner] at hn
  obtain ⟨handle,hhandle,hid⟩ := List.mem_map.mp hn
  have hpos := (h.numbers handle (h.parted.mem_iff.mp (List.mem_append_right _ hhandle))).1
  omega

theorem perform_of_error {operation : Operation} {d : Diagnostic} {s : ScopeStack}
    (h : r.scopes.attempt operation = (.error d,s)) : r.perform operation = r := by
  rw [perform,h,r.scopes.cautious_attempt operation d s h]

/-- What holds of the first session and is kept by every successful operation. -/
theorem run_of_moves {name : String} {caseSensitive : Bool} {scoping : Scoping} {P : Session → Prop}
    (hstart : P { scopes := start name caseSensitive scoping })
    (hstep : ∀ r operation reply s, P r → r.scopes.Moves operation reply s →
      P (r.record s operation reply)) (operations : List Operation) :
    P (run name caseSensitive scoping operations) := by
  refine List.foldlRecOn operations perform hstart fun r hr operation _ => ?_
  rcases h : r.scopes.attempt operation with ⟨d | reply,scopes⟩
  · rw [perform_of_error h]
    exact hr
  · rw [perform,h]
    exact hstep r operation reply scopes hr (moves_of_attempt h)

theorem scopes_record (r : Session) (s : ScopeStack) (operation : Operation) (reply : Reply) :
    (r.record s operation reply).scopes = s := by
  unfold record
  split <;> rfl

/-- A failed operation might as well not have been asked for. -/
theorem run_of_error {name : String} {caseSensitive : Bool} {scoping : Scoping}
    {operations : List Operation} {operation : Operation} {d : Diagnostic} {s : ScopeStack}
    (h : (run name caseSensitive scoping operations).scopes.attempt operation = (.error d,s))
    (more : List Operation) :
    run name caseSensitive scoping (operations ++ operation :: more) =
      run name caseSensitive scoping (operations ++ more) := by
  have hsame := perform_of_error h
  unfold run at hsame ⊢
  rw [List.foldl_append,List.foldl_append,List.foldl_cons,hsame]

/-- After any operations: the outermost scope is the original one; open scopes have different numbers
and no handle was given out twice; a handle closes a scope exactly if that scope is the innermost, and
gives its table; every handle has either closed its scope, once, or its scope is open; under flat
scoping at most one scope is open besides the outermost and none hides anything; and an operation that
fails changes nothing. -/
theorem run_disciplined (name : String) (caseSensitive : Bool) (scoping : Scoping)
    (operations : List Operation) :
    let r := run name caseSensitive scoping operations
    (∃ table, r.scopes.scopes.getLast? = some ⟨0,table,.opened,[]⟩ ∧ table.name = name ∧
        table.caseSensitive = caseSensitive) ∧
      (r.scopes.scopes.map Scope.id).Nodup ∧ r.issued.Nodup ∧
      (∀ handle, (r.scopes.pop handle).1.isOk = true ↔ r.opened.head? = some handle) ∧
      (∀ handle table s, r.scopes.pop handle = (.ok table,s) →
        table = r.scopes.current ∧ s.scopes = r.scopes.scopes.tail) ∧
      (r.closed ++ r.opened).Nodup ∧ (r.closed ++ r.opened).Perm r.issued ∧
      (scoping = .flat → r.scopes.depth ≤ 1 ∧ ∀ scope ∈ r.scopes.scopes, scope.discipline = .opened) ∧
      ∀ operation d s, r.scopes.attempt operation = (.error d,s) → s = r.scopes ∧ ∀ more,
        run name caseSensitive scoping (operations ++ operation :: more) =
          run name caseSensitive scoping (operations ++ more) := by
  intro r
  obtain ⟨hrooted,hlayered,haccounted⟩ : Rooted name caseSensitive r.scopes.outermost ∧
      r.scopes.Layered scoping ∧ r.Accounted := by
    refine run_of_moves (P := fun r => Rooted name caseSensitive r.scopes.outermost ∧
      r.scopes.Layered scoping ∧ r.Accounted) ⟨⟨rfl,rfl,rfl,rfl,rfl⟩,
        ⟨rfl,by simp [start],by simp [start]⟩,accounted_start name caseSensitive scoping⟩ ?_ operations
    rintro r operation reply s ⟨hrooted,hlayered,haccounted⟩ hm
    rw [scopes_record]
    exact ⟨rooted_moves hrooted hm,layered_moves hlayered hm,haccounted.record hm⟩
  have hissued : r.issued.Nodup := haccounted.once.of_map
  refine ⟨⟨r.scopes.global,?_,hrooted.name,hrooted.caseSensitive⟩,haccounted.nodup_ids hrooted.id,hissued,
    ?_,fun handle table s h => pop_top h,haccounted.parted.nodup_iff.mpr hissued,haccounted.parted,
    fun hflat => ⟨hlayered.depth hflat,fun scope hscope => ?_⟩,
    fun operation d s h => ⟨r.scopes.cautious_attempt operation d s h,run_of_error h⟩⟩
  · rw [ScopeStack.scopes,List.getLast?_concat,global,← hrooted.id,← hrooted.discipline,
      ← hrooted.imported]
  · intro handle
    rw [haccounted.opened]
    exact r.scopes.pop_isOk_iff handle
  · rcases List.mem_append.mp hscope with hscope | hscope
    · exact hlayered.opened hflat scope hscope
    · rw [List.mem_singleton.mp hscope]
      exact hrooted.discipline

end Session

end ScopeStack
end StackCompiler
