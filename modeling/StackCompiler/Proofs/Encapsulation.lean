import StackCompiler.Proofs.CallLinks
import StackCompiler.Proofs.EvaluatedBodies
import StackCompiler.Proofs.Visibility

/-! Closed routines and the variables of the outermost scope.
Code names a variable of the outermost scope only where the name was found there, past all scopes of
the routines around. A closed scope lets through what it shares, and it shares what the statements of
its routine share: so every closed routine around the code shares the variable by name. -/
namespace StackCompiler

mutual

/-- The routine with those around it, innermost first; then the same for the routines inside it. -/
def Routine.lineage (outer : List Routine) : Routine → List (List Routine)
  | ⟨name,discipline,params,returns,body,nested,line⟩ =>
    (⟨name,discipline,params,returns,body,nested,line⟩ :: outer) ::
      Routine.lineageAll (⟨name,discipline,params,returns,body,nested,line⟩ :: outer) nested

def Routine.lineageAll (outer : List Routine) : List Routine → List (List Routine)
  | [] => []
  | x :: rest => x.lineage outer ++ Routine.lineageAll outer rest

end

/-- The name of the code of a routine, given with those around it. -/
def Routine.entryOf (caseSensitive : Bool) : List Routine → String
  | [] => ""
  | [x] => normalize caseSensitive x.name
  | x :: outer => Lowering.nestedEntry (entryOf caseSensitive outer) (normalize caseSensitive x.name)

def Routine.Shares (caseSensitive : Bool) (x : Routine) (key : String) : Prop :=
  ∃ line names name, .share line names ∈ Stmt.flattenAll x.body ∧ name ∈ names ∧
    normalize caseSensitive name = key

/-- The variables of the outermost scope that the code loads, stores, indexes, checks or makes, in the
order of the code. -/
def RoutineCode.outerNames (rc : RoutineCode) : List String :=
  rc.code.filterMap fun i =>
    match i.place? with
    | some (.global key) => some key
    | _ => none

theorem RoutineCode.mem_outerNames {rc : RoutineCode} {key : String} :
    key ∈ rc.outerNames ↔ .place (.global key) ∈ rc.code.references := by
  constructor
  · intro h
    obtain ⟨i,hi,hkey⟩ := List.mem_filterMap.mp h
    split at hkey
    · next hplace =>
      cases hkey
      exact Code.mem_references_of_place hi hplace
    · cases hkey
  · intro h
    obtain ⟨i,hi,hplace⟩ := Code.exists_place h
    exact List.mem_filterMap.mpr ⟨i,hi,by rw [hplace]⟩

mutual

theorem Routine.heads_lineage : ∀ (x : Routine) (outer : List Routine),
    (x.lineage outer).map List.head? = x.preorder.map some
  | ⟨_,_,_,_,_,nested,_⟩, outer => by
    rw [lineage,preorder,List.map_cons,List.map_cons,heads_lineageAll nested]
    rfl

theorem Routine.heads_lineageAll : ∀ (xs : List Routine) (outer : List Routine),
    (lineageAll outer xs).map List.head? = (preorderAll xs).map some
  | [], _ => by
    rw [lineageAll,preorderAll]
    rfl
  | x :: rest, outer => by
    rw [lineageAll,preorderAll,List.map_append,List.map_append,heads_lineage x,heads_lineageAll rest]

end

namespace ScopeStack

/-- Of the innermost scope only the table changes, and the names it shares by keys of a kind. -/
structure Widens (P : String → Prop) (s s' : ScopeStack) : Prop where
  rule : s'.caseSensitive = s.caseSensitive
  discipline : s'.top.discipline = s.top.discipline
  imported : ∀ key ∈ s'.top.imported, key ∈ s.top.imported ∨ P key

section

variable {P : String → Prop} {s s' : ScopeStack}

theorem Widens.refl (s : ScopeStack) : Widens P s s := ⟨rfl,rfl,fun _ => .inl⟩

theorem Widens.trans {s'' : ScopeStack} (h : Widens P s s') (h' : Widens P s' s'') :
    Widens P s s'' := by
  refine ⟨h'.rule.trans h.rule,h'.discipline.trans h.discipline,fun key hkey => ?_⟩
  rcases h'.imported key hkey with hkey | hkey
  · exact h.imported key hkey
  · exact .inr hkey

theorem widens_add (s : ScopeStack) (symbols : List Symbol) : Widens P s (s.add symbols) := by
  refine ⟨caseSensitive_add s symbols,?_,?_⟩ <;> unfold add updateTop top <;> cases s.inner
  · rfl
  · rfl
  · exact fun _ => .inl
  · exact fun _ => .inl

theorem widens_share {name : String} {line : Line} {symbol : Symbol}
    (h : s.share name line = (.ok symbol,s')) (hP : P (s.normalize name)) : Widens P s s' := by
  obtain ⟨scope,rest,_,hi,_,rfl⟩ := share_eq_ok h
  refine ⟨rfl,?_,fun key hkey => ?_⟩
  · unfold top
    rw [hi,List.headD_cons,List.headD_cons,Scope.share]
    split <;> rfl
  · unfold top at hkey ⊢
    rw [List.headD_cons,Scope.share] at hkey
    rw [hi,List.headD_cons]
    split at hkey
    · exact .inl hkey
    · rcases List.mem_cons.mp hkey with rfl | hkey
      · exact .inr hP
      · exact .inl hkey

theorem top_forget (s : ScopeStack) : s.forget.top = s.top.forget := by
  unfold top forget
  cases s.inner <;> rfl

theorem top_push {name : String} {discipline : Discipline} {handle : ScopeHandle}
    (h : s.push name discipline = (.ok handle,s')) (hs : s.scoping = .nested) :
    s'.top.discipline = discipline ∧ s'.top.imported = [] := by
  unfold push at h
  rw [hs] at h
  split at h <;> cases h
  exact ⟨rfl,rfl⟩

/-- What is found in the outermost scope was hidden by no other. -/
theorem hides_of_resolve {name : String} {symbol : Symbol}
    (h : s.resolve name = some (symbol,0)) :
    ∀ scope ∈ s.inner, scope.hides (s.normalize name) = false := by
  rw [resolve,find_eq_search,search_eq_some_iff] at h
  obtain ⟨above,last,below,hsplit,hbelow,_,habove⟩ := h
  obtain rfl := List.length_eq_zero_iff.mp hbelow
  obtain ⟨rfl,_⟩ := List.append_inj' hsplit rfl
  exact fun scope hscope => (habove scope hscope).2

end

end ScopeStack

namespace Evaluation

open ScopeStack

variable {P : String → Prop} {caseSensitive : Bool}

theorem widens_shareAll {line : Line} (names : List String) (s : ScopeStack)
    (hs : s.caseSensitive = caseSensitive) (hP : ∀ name ∈ names, P (normalize caseSensitive name)) :
    Widens P s (names.foldl (fun scopes name => (scopes.share name line).2) s) := by
  induction names generalizing s with
  | nil => exact .refl s
  | cons name rest ih =>
    have hfirst : Widens P s (s.share name line).2 := by
      rcases hshare : s.share name line with ⟨d | symbol,s'⟩
      · rw [s.cautious_share name line d s' hshare]
        exact .refl s
      · refine widens_share hshare ?_
        rw [normalize_eq,hs]
        exact hP name List.mem_cons_self
    exact hfirst.trans (ih _ (hfirst.rule.trans hs) fun x hx => hP x (List.mem_cons_of_mem _ hx))

mutual

/-- Behind a statement the innermost scope shares what it did before and what the statement
shares. -/
theorem widens_after (r : Setting) : ∀ (x : Stmt) (s : ScopeStack),
    s.caseSensitive = caseSensitive →
    (∀ line names, .share line names ∈ x.flatten → ∀ name ∈ names, P (normalize caseSensitive name)) →
    Widens P s (after r s x)
  | .declare line d, s, _, _ => by
    rw [after]
    split
    · exact .refl s
    · rcases hd : Lowering.declare d s with ⟨e | symbol,s'⟩
      · rw [Lowering.cautious_declare d s e s' hd]
        exact .refl s
      · obtain ⟨_,_,_,_,rfl⟩ := Lowering.declare_cases hd
        exact widens_add s _
  | .share line names, s, hs, hP => by
    rw [after]
    refine widens_shareAll names s hs (hP line names ?_)
    unfold Stmt.flatten
    exact List.mem_cons_self
  | .ifElse line cond yes no, s, hs, hP => by
    rw [Stmt.flatten] at hP
    rw [after]
    have hyes : Widens P s (afterAll r s yes) := widens_afterAll r yes s hs fun l names h =>
      hP l names (List.mem_cons_of_mem _ (List.mem_append_left _ h))
    exact hyes.trans (widens_afterAll r no _ (hyes.rule.trans hs) fun l names h =>
      hP l names (List.mem_cons_of_mem _ (List.mem_append_right _ h)))
  | .whileDo line cond body, s, hs, hP => by
    rw [Stmt.flatten] at hP
    rw [after]
    exact widens_afterAll r body s hs fun l names h => hP l names (List.mem_cons_of_mem _ h)
  | .repeatUntil line body cond, s, hs, hP => by
    rw [Stmt.flatten] at hP
    rw [after]
    exact widens_afterAll r body s hs fun l names h => hP l names (List.mem_cons_of_mem _ h)
  | .forTo line var first last step body, s, hs, hP => by
    rw [Stmt.flatten] at hP
    rw [after]
    exact widens_afterAll r body s hs fun l names h => hP l names (List.mem_cons_of_mem _ h)
  | .assign .., s, _, _ | .call .., s, _, _ | .label .., s, _, _ | .goto .., s, _, _
  | .ret .., s, _, _ | .print .., s, _, _ | .stop .., s, _, _ => by
    unfold after
    exact .refl s

theorem widens_afterAll (r : Setting) : ∀ (xs : List Stmt) (s : ScopeStack),
    s.caseSensitive = caseSensitive →
    (∀ line names, .share line names ∈ Stmt.flattenAll xs → ∀ name ∈ names,
      P (normalize caseSensitive name)) →
    Widens P s (afterAll r s xs)
  | [], s, _, _ => by
    rw [afterAll]
    exact .refl s
  | x :: rest, s, hs, hP => by
    rw [Stmt.flattenAll] at hP
    rw [afterAll]
    have hx : Widens P s (after r s x) := widens_after r x s hs fun l names h =>
      hP l names (List.mem_append_left _ h)
    exact hx.trans (widens_afterAll r rest _ (hx.rule.trans hs) fun l names h =>
      hP l names (List.mem_append_right _ h))

end

end Evaluation

namespace ScopeStack

/-- No scope of a routine hides the key. -/
def LetsThrough (s : ScopeStack) (key : String) : Prop := ∀ scope ∈ s.inner, scope.hides key = false

section

variable {s s' : ScopeStack} {key : String}

theorem LetsThrough.of_forget (h : s.LetsThrough key) (he : s'.forget = s.forget) :
    s'.LetsThrough key := by
  intro scope hscope
  have hmem : scope.forget ∈ s.inner.map Scope.forget := by
    rw [show s.inner.map Scope.forget = s'.inner.map Scope.forget from
      (congrArg ScopeStack.inner he).symm]
    exact List.mem_map_of_mem hscope
  obtain ⟨old,hold,hforget⟩ := List.mem_map.mp hmem
  have hsame : scope.forget.hides key = old.forget.hides key := by rw [hforget]
  exact hsame.trans (h old hold)

theorem LetsThrough.add (h : s.LetsThrough key) (symbols : List Symbol) :
    (s.add symbols).LetsThrough key := by
  intro scope hscope
  unfold ScopeStack.add updateTop at hscope
  cases hi : s.inner with
  | nil =>
    rw [hi] at hscope
    cases hscope
  | cons top rest =>
    rw [hi] at hscope
    rcases List.mem_cons.mp hscope with rfl | hscope
    · exact h top (by rw [hi]; exact List.mem_cons_self)
    · exact h scope (by rw [hi]; exact List.mem_cons_of_mem _ hscope)

theorem LetsThrough.share (h : s.LetsThrough key) {name : String} {line : Line} {symbol : Symbol}
    (hs : s.share name line = (.ok symbol,s')) : s'.LetsThrough key := by
  obtain ⟨top,rest,_,hi,_,rfl⟩ := share_eq_ok hs
  intro scope hscope
  rcases List.mem_cons.mp hscope with rfl | hscope
  · have htop := h top (by rw [hi]; exact List.mem_cons_self)
    rw [hides_eq_false_iff] at htop ⊢
    unfold Scope.share
    split
    · exact htop
    · exact fun hclosed => List.mem_cons_of_mem _ (htop hclosed)
  · exact h scope (by rw [hi]; exact List.mem_cons_of_mem _ hscope)

end

end ScopeStack

namespace Lowering

open Lower Assemble Evaluation

theorem State.Changes.letsThrough {r : Routine} {s s' : State} {key : String} (h : s.Changes r s')
    (hs : s.scopes.LetsThrough key) : s'.scopes.LetsThrough key := by
  induction h with
  | refl => exact hs
  | tail _ hstep ih =>
    cases hstep with
    | touch found line => exact ih.of_forget (ScopeStack.forget_touch _ found line)
    | share hshare => exact ih.share hshare
    | declare _ hdecl =>
      obtain ⟨_,_,_,_,rfl⟩ := declare_cases hdecl
      exact ih.add _
    | label | record | temp | slot | result => exact ih

/-- A variable without a slot was found past all scopes of routines. -/
theorem Found.letsThrough {r : Routine} {D : Declaration → Prop} {s s' : State} {name : String}
    {type : Ty} (h : Found r D s (.global name) type s') (hr : r.depth ≠ 0)
    (hs : s.scopes.Uniform) : s.scopes.LetsThrough name := by
  generalize hp : Place.global name = p at h
  cases h with
  | @stored _ _ _ found _ hresolve hst hplace =>
    rcases gives_place.mp hplace with ⟨hz,rfl,_⟩ | ⟨_,_,rfl,_⟩
    · cases hp
      rw [hs.key_of_resolve hresolve]
      obtain ⟨symbol,depth⟩ := found
      obtain rfl : depth = 0 := hz
      exact ScopeStack.hides_of_resolve hresolve
    · cases hp
  | room hz => exact absurd hz hr
  | array | temp | result | resultRead => cases hp

/-- Code that names variables of the outermost scope only by certain names. -/
def namingContext (language : Language) (named : String → Prop) : Context where
  language
  place
    | .slot _, _ => True
    | .global name, _ => named name
  routine _ _ _ := True
  returns _ _ := True

section prepared

variable {caseSensitive : Bool} {language : Language} {final : List RoutineCode}
  {ground : ScopeStack} {entry : String} {x : StackCompiler.Routine} {p : Progress} {code : Code}
  {s : State}

/-- The code of a routine names variables of the outermost scope only where its last scopes let them
through. -/
theorem Prepared.naming (b : Prepared language entry x p)
    (hstart : Sound final ground b.start.scopes)
    (hbody : (bodyCode b.routine (stmts b.routine x.body)).Gives b.start code s) :
    code.Types (namingContext language s.scopes.LetsThrough) [] [] := by
  have hfits : Fits (namingContext language s.scopes.LetsThrough) b.routine (fun _ => True) b.start s :=
    { language := rfl
      place := by
        intro t t' place type hbefore hf hafter
        cases place with
        | slot n => exact trivial
        | global name =>
          have hsound := hstart.changes b.depth_start hbefore
          exact State.Changes.letsThrough (hf.changes.trans hafter)
            (hf.letsThrough b.depth_ne_zero hsound.uniform)
      routine := fun _ _ _ => trivial
      constant := fun hbefore hr hc hl =>
        ((hstart.changes b.depth_start hbefore).symbols.of_mem
          (ScopeStack.exists_of_resolve hr)).constant hc _ hl
      returns := ⟨fun _ => trivial,fun _ => trivial,fun _ _ _ => trivial⟩ }
  exact types_of_bodyCode hbody (stays_stmts _ _ _) hfits fun hs hfits =>
    types_of_stmts b.routine x.body hs hfits fun _ _ _ => trivial

end prepared

/-- The scope has the discipline of the routine, and shares what its statements share. -/
structure Mirrors (caseSensitive : Bool) (x : StackCompiler.Routine) (scope : Scope) : Prop where
  discipline : scope.discipline = x.discipline
  imported : ∀ key ∈ scope.imported, x.Shares caseSensitive key

def Encloses (caseSensitive : Bool) (outer : List StackCompiler.Routine) (s : ScopeStack) : Prop :=
  List.Forall₂ (Mirrors caseSensitive) outer s.inner

section encloses

variable {caseSensitive : Bool} {outer : List StackCompiler.Routine} {s s' : ScopeStack}

theorem encloses_forget :
    List.Forall₂ (Mirrors caseSensitive) outer (s.inner.map Scope.forget) ↔
      Encloses caseSensitive outer s :=
  List.forall₂_map_right_iff.trans
    ⟨fun h => h.imp fun _ _ hm => ⟨hm.discipline,hm.imported⟩,
      fun h => h.imp fun _ _ hm => ⟨hm.discipline,hm.imported⟩⟩

theorem Encloses.of_forget (h : Encloses caseSensitive outer s) (he : s'.forget = s.forget) :
    Encloses caseSensitive outer s' := by
  rw [← encloses_forget] at h ⊢
  rwa [show s'.inner.map Scope.forget = s.inner.map Scope.forget from congrArg ScopeStack.inner he]

theorem Encloses.shares (h : Encloses caseSensitive outer s) {key : String}
    (hkey : s.LetsThrough key) {x : StackCompiler.Routine} (hx : x ∈ outer)
    (hclosed : x.discipline = .closed) : x.Shares caseSensitive key := by
  obtain ⟨scope,hscope,hmirrors⟩ := exists_of_mem_left h hx
  have hhides := ScopeStack.hides_eq_false_iff.mp (hkey scope hscope)
  exact hmirrors.imported key (hhides (hmirrors.discipline.trans hclosed))

end encloses

/-- Behind the body of a routine its scope stands before those of the routines around. -/
theorem Prepared.encloses {caseSensitive : Bool} {language : Language} {entry : String}
    {x : StackCompiler.Routine} {p : Progress} {code : Code} {s : State}
    {outer : List StackCompiler.Routine} (b : Prepared language entry x p)
    (hbody : (bodyCode b.routine (stmts b.routine x.body)).Gives b.start code s)
    (hs : s.errors = []) (hscoping : p.scopes.scoping = .nested)
    (hrule : p.scopes.caseSensitive = caseSensitive) (h : Encloses caseSensitive outer p.scopes) :
    Encloses caseSensitive (x :: outer) s.scopes := by
  have hchanges := changes_of_gives hbody (stays_bodyCode (stays_stmts _ x.body _))
  have herr : s.errors = b.start.errors :=
    hs.trans (List.prefix_nil.mp (hs ▸ hchanges.errors)).symm
  have hagrees := agrees_bodyCode hbody herr (rfl : b.start.Agrees b.start.scopes)
  have hwidens : ScopeStack.Widens (x.Shares caseSensitive) b.scopes
      (afterAll b.routine.setting b.start.scopes x.body) :=
    (ScopeStack.widens_add b.scopes _).trans
      (widens_afterAll _ x.body _ (b.caseSensitive_start.trans hrule) fun line names hmem name hname =>
        ⟨line,names,name,hmem,hname,rfl⟩)
  have htop : (afterAll b.routine.setting b.start.scopes x.body).top.forget = s.scopes.top.forget := by
    rw [← ScopeStack.top_forget,← ScopeStack.top_forget,hagrees]
  obtain ⟨hdiscipline,himported⟩ := ScopeStack.top_push b.opened hscoping
  have hmirrors : Mirrors caseSensitive x s.scopes.top := by
    refine ⟨?_,fun key hkey => ?_⟩
    · have hsame := congrArg Scope.discipline htop
      exact hsame.symm.trans (hwidens.discipline.trans hdiscipline)
    · have hsame := congrArg Scope.imported htop
      change _ = s.scopes.top.imported at hsame
      rw [← hsame] at hkey
      rcases hwidens.imported key hkey with hold | hnew
      · rw [himported] at hold
        cases hold
      · exact hnew
  cases hi : s.scopes.inner with
  | nil =>
    have hsame := ScopeStack.depth_of_outline hchanges.outline
    rw [b.depth_start,ScopeStack.depth,hi] at hsame
    exact absurd hsame.symm b.depth_ne_zero
  | cons top rest =>
    have hrest : rest.map Scope.forget = p.scopes.inner.map Scope.forget := by
      have hinner := congrArg ScopeStack.inner (b.around hchanges)
      unfold ScopeStack.around ScopeStack.forget at hinner
      rwa [hi] at hinner
    have hhead : s.scopes.top = top := by rw [ScopeStack.top,hi,List.headD_cons]
    rw [hhead] at hmirrors
    rw [Encloses,hi]
    refine .cons hmirrors ?_
    rw [← encloses_forget,← hrest] at h
    exact (List.forall₂_map_right_iff.mp h).imp fun _ _ hm => ⟨hm.discipline,hm.imported⟩

/-- The code has the name that belongs to its routine, and every closed routine of the given ones
shares each variable of the outermost scope that the code names. -/
structure Confined (caseSensitive : Bool) (chain : List StackCompiler.Routine) (rc : RoutineCode) :
    Prop where
  name : rc.name = Routine.entryOf caseSensitive chain
  shared : ∀ key ∈ rc.outerNames, ∀ x ∈ chain, x.discipline = .closed → x.Shares caseSensitive key

section confined

variable {caseSensitive : Bool} {language : Language} {final : List RoutineCode}
  {ground : ScopeStack}

theorem Prepared.confined {entry : String} {x : StackCompiler.Routine} {p : Progress} {code : Code}
    {s : State} {chain : List StackCompiler.Routine} (b : Prepared language entry x p)
    (hstart : Sound final ground b.start.scopes)
    (hbody : (bodyCode b.routine (stmts b.routine x.body)).Gives b.start code s)
    (hentry : entry = Routine.entryOf caseSensitive chain)
    (h : Encloses caseSensitive chain s.scopes) :
    Confined caseSensitive chain (b.finished s.frame code) := by
  refine ⟨hentry,fun key hkey y hy hclosed => ?_⟩
  obtain ⟨i,hi,hplace⟩ := Code.exists_place (RoutineCode.mem_outerNames.mp hkey)
  obtain ⟨_,_,htypes⟩ := (b.naming hstart hbody).of_mem hi
  obtain ⟨_,hthrough⟩ := htypes.place hplace
  exact h.shares hthrough hy hclosed

mutual

theorem confined_routine (hscoping : ground.scoping = .nested)
    (hrule : ground.caseSensitive = caseSensitive) : ∀ (x : StackCompiler.Routine) {entry : String}
    {u : Unit} {p p' : Progress} {outer : List StackCompiler.Routine},
    (routine language entry x).Gives p u p' → p'.errors = [] → p'.routines ⊆ final →
    Sound final ground p.scopes → Encloses caseSensitive outer p.scopes →
    entry = Routine.entryOf caseSensitive (x :: outer) →
    ∃ added, p'.routines = p.routines ++ added ∧
      List.Forall₂ (Confined caseSensitive) (x.lineage outer) added
  | ⟨name,discipline,params,returns,body,nested,line⟩, entry, u, p, p', outer, h, he, hfinal, hp,
      houter, hentry => by
    obtain ⟨b,code,s,v,q,table,scopes,hbody,hs,_,hroutines,hpop,rfl⟩ :=
      routine_ok h he (grows_routines language nested)
    have hchanges := changes_of_gives hbody (stays_bodyCode (stays_stmts _ _ _))
    have hstart : Sound final ground b.start.scopes := b.sound_start hp fun y hy => by
      have hlinked := linked_routines nested hroutines he y hy
      rw [ScopeStack.normalize_eq,show ((b.progress.after s).add _).scopes.caseSensitive = _ from
        hchanges.caseSensitive,b.caseSensitive_start] at hlinked
      exact hlinked.mono fun _ hrc => hfinal (List.drop_subset _ _ hrc)
    have hscoping' : p.scopes.scoping = .nested := by
      rw [← hscoping,← hp.outer]
      rfl
    have hrule' : p.scopes.caseSensitive = caseSensitive := by
      rw [← hrule,← hp.outer]
      rfl
    have hchain := b.encloses hbody hs hscoping' hrule' houter
    obtain ⟨added,hadded,hnested⟩ := confined_routines hscoping hrule nested hroutines he hfinal
      (hstart.changes b.depth_start hchanges) hchain hentry
    refine ⟨b.finished s.frame code :: added,?_,?_⟩
    · rw [hadded]
      exact List.append_assoc _ _ _
    · rw [Routine.lineage]
      exact .cons (b.confined hstart hbody hentry hchain) hnested

theorem confined_routines (hscoping : ground.scoping = .nested)
    (hrule : ground.caseSensitive = caseSensitive) : ∀ (xs : List StackCompiler.Routine)
    {parent : String} {u : Unit} {p p' : Progress} {y : StackCompiler.Routine}
    {outer : List StackCompiler.Routine},
    (routines language parent xs).Gives p u p' → p'.errors = [] → p'.routines ⊆ final →
    Sound final ground p.scopes → Encloses caseSensitive (y :: outer) p.scopes →
    parent = Routine.entryOf caseSensitive (y :: outer) →
    ∃ added, p'.routines = p.routines ++ added ∧
      List.Forall₂ (Confined caseSensitive) (Routine.lineageAll (y :: outer) xs) added
  | [], _, _, _, _, _, _, h, _, _, _, _, _ => by
    rw [routines] at h
    rw [(gives_pure.mp h).2,Routine.lineageAll]
    exact ⟨[],(List.append_nil _).symm,.nil⟩
  | x :: rest, parent, _, _, _, y, outer, h, he, hfinal, hp, houter, hparent => by
    rw [routines] at h
    simp only [gives_bind,gives_keyOf] at h
    obtain ⟨_,p,⟨rfl,rfl⟩,_,q,hx,h⟩ := h
    have hgrows := grows_routines language rest h
    have hq := hgrows.errors_nil he
    have hscopes := forget_routine x hx hq
    have hbalanced := balanced_of_gives hx (settles_routine language x _ _)
    have hentry : nestedEntry parent (p.scopes.normalize x.name) =
        Routine.entryOf caseSensitive (x :: y :: outer) := by
      rw [Routine.entryOf,← hparent,ScopeStack.normalize_eq,← hrule,← hp.outer]
      · rfl
      · nofun
    obtain ⟨first,hfirst,hconfined⟩ := confined_routine hscoping hrule x hx hq
      (fun rc hrc => hfinal (hgrows.routines.subset hrc)) hp houter hentry
    obtain ⟨more,hmore,hrest⟩ := confined_routines hscoping hrule rest h he hfinal
      (hp.of_forget hscopes hbalanced.outline) (houter.of_forget hscopes) hparent
    refine ⟨first ++ more,?_,?_⟩
    · rw [hmore,hfirst,List.append_assoc]
    · rw [Routine.lineageAll]
      exact List.rel_append hconfined hrest

end

theorem confined_topLevel (hscoping : ground.scoping = .nested)
    (hrule : ground.caseSensitive = caseSensitive) : ∀ (xs : List StackCompiler.Routine)
    {u : Unit} {p p' : Progress}, (topLevel language xs).Gives p u p' → p'.errors = [] →
    p'.routines ⊆ final → Sound final ground p.scopes → Encloses caseSensitive [] p.scopes →
    ∃ added, p'.routines = p.routines ++ added ∧
      List.Forall₂ (Confined caseSensitive) (Routine.lineageAll [] xs) added
  | [], _, _, _, h, _, _, _, _ => by
    rw [topLevel] at h
    rw [(gives_pure.mp h).2,Routine.lineageAll]
    exact ⟨[],(List.append_nil _).symm,.nil⟩
  | x :: rest, _, _, _, h, he, hfinal, hp, houter => by
    simp only [topLevel,gives_bind,gives_keyOf] at h
    obtain ⟨_,p,⟨rfl,rfl⟩,_,q,hx,h⟩ := h
    have hgrows := grows_topLevel language rest h
    have hq := hgrows.errors_nil he
    have hscopes := forget_routine x hx hq
    have hbalanced := balanced_of_gives hx (settles_routine language x _ _)
    have hentry : p.scopes.normalize x.name = Routine.entryOf caseSensitive [x] := by
      rw [Routine.entryOf,ScopeStack.normalize_eq,← hrule,← hp.outer]
      rfl
    obtain ⟨first,hfirst,hconfined⟩ := confined_routine hscoping hrule x hx hq
      (fun rc hrc => hfinal (hgrows.routines.subset hrc)) hp houter hentry
    obtain ⟨more,hmore,hrest⟩ := confined_topLevel hscoping hrule rest h he hfinal
      (hp.of_forget hscopes hbalanced.outline) (houter.of_forget hscopes)
    refine ⟨first ++ more,?_,?_⟩
    · rw [hmore,hfirst,List.append_assoc]
    · rw [Routine.lineageAll]
      exact List.rel_append hconfined hrest

theorem confined_of_run {u : SourceUnit} {m : Module} (hl : u.language = .comal)
    (h : (run u caseSensitive).2 = .ok m) :
    ∃ main rest, m.routines = main :: rest ∧
      List.Forall₂ (Confined caseSensitive) (Routine.lineageAll [] u.routines) rest := by
  obtain ⟨v,p',hunit,he,rfl⟩ := run_eq_ok h
  obtain ⟨symbols,p,b,code,s,w,hp,hsymbols,hbody,hs,htop⟩ := sourceUnit_ok hunit he
  have hchanges := changes_of_gives hbody (stays_bodyCode (stays_mainBody _ u _))
  have hground := grounded_start b hp hsymbols
  have hdepth : b.start.scopes.depth = 0 := by
    change (p.scopes.add _).depth = 0
    rw [hp]
    rfl
  have hstart : Sound p'.routines b.start.scopes.ground b.start.scopes :=
    sound_start b hp hsymbols fun x hx => by
      have hlinked := (linked_topLevel u.routines htop he x hx).mono (List.drop_subset _ _)
      rwa [ScopeStack.normalize_eq,show ((b.progress.after s).add _).scopes.caseSensitive = _ from
        hchanges.caseSensitive.trans hground.rule] at hlinked
  have hinner : s.scopes.inner = [] := by
    have hzero := (ScopeStack.depth_of_outline hchanges.outline).trans hdepth
    exact List.length_eq_zero_iff.mp hzero
  have hnested : b.start.scopes.ground.scoping = .nested := by
    rw [hground.scoping,hl]
    rfl
  obtain ⟨added,hadded,hconfined⟩ := confined_topLevel hnested hground.rule
    u.routines htop he (List.Subset.refl _) (hstart.changes hdepth hchanges)
    (by change List.Forall₂ _ [] s.scopes.inner; rw [hinner]; exact .nil)
  have hnone : p.routines = [] := by
    rw [hp]
    rfl
  refine ⟨b.finished s.frame code,added,?_,hconfined⟩
  change p'.routines = _
  rw [hadded]
  change p.routines ++ [_] ++ added = _
  rw [hnone]
  rfl

end confined

end Lowering

theorem Passes.outerNames_optimize (p : Passes) {rc : RoutineCode} {key : String}
    (h : key ∈ (p.optimize rc).outerNames) : key ∈ rc.outerNames := by
  rw [RoutineCode.mem_outerNames] at h ⊢
  exact p.references_optimize h fun _ => nofun

/-- In a compiled module with nested scopes the code of every routine, also inside others, names a
variable of the outermost scope only if every closed routine around it, and itself if it is closed,
shares that variable by name. So nothing inside a closed routine that shares no names has to do with
the outermost scope. -/
theorem SourceUnit.compile_confined {u : SourceUnit} {o : CompileOptions} {m : Module}
    (hl : u.language = .comal) (h : u.compile o = .ok m) :
    (Routine.lineageAll [] u.routines).map List.head? = (Routine.preorderAll u.routines).map some ∧
    ∃ main rest, m.routines = main :: rest ∧
      List.Forall₂ (fun chain rc => rc.name = Routine.entryOf (o.caseRule u) chain ∧
        (∀ key ∈ rc.outerNames, ∀ x ∈ chain, x.discipline = .closed → x.Shares (o.caseRule u) key) ∧
        ((∃ x ∈ chain, x.discipline = .closed ∧
          ∀ line names, .share line names ∉ Stmt.flattenAll x.body) → rc.outerNames = []))
        (Routine.lineageAll [] u.routines) rest := by
  obtain ⟨m₀,hrun,rfl⟩ := compile_eq_ok h
  obtain ⟨main,rest,hroutines,hconfined⟩ := Lowering.confined_of_run hl hrun
  refine ⟨Routine.heads_lineageAll _ _,o.passes.optimize main,rest.map o.passes.optimize,?_,?_⟩
  · change m₀.routines.map o.passes.optimize = _
    rw [hroutines]
    rfl
  · refine List.forall₂_map_right_iff.mpr (hconfined.imp fun chain rc hc => ?_)
    have hshared : ∀ key ∈ (o.passes.optimize rc).outerNames, ∀ x ∈ chain,
        x.discipline = .closed → x.Shares (o.caseRule u) key :=
      fun key hkey => hc.shared key (o.passes.outerNames_optimize hkey)
    refine ⟨(o.passes.optimize_signature rc).1.trans hc.name,hshared,?_⟩
    rintro ⟨x,hx,hclosed,hnone⟩
    refine List.eq_nil_iff_forall_not_mem.mpr fun key hkey => ?_
    obtain ⟨line,names,_,hmem,_⟩ := hshared key hkey x hx hclosed
    exact hnone line names hmem

/-- A closed routine that shares a variable, with a routine inside that changes it, and a closed
routine that shares nothing. -/
def vault : SourceUnit :=
  let one : Expr := .literal 1 (.integer 1)
  let gold : Expr := .ident 5 "gold"
  { name := "VAULT"
    language := .comal
    globals := [{ name := "Gold", base := .integer }]
    main := [.call 1 "Keeper" [],.call 2 "Guard" []]
    routines := [
      { name := "Keeper"
        discipline := .closed
        body := [.ifElse 3 (.literal 3 (.boolean true)) [.share 3 ["gold"]] [],.call 4 "Turn" []]
        routines := [
          { name := "Turn", body := [.assign 5 { name := "GOLD" } (.binary 5 gold .add one)] }] },
      { name := "Guard"
        discipline := .closed
        body := [.declare 6 { name := "Gold", base := .integer },.assign 7 { name := "gold" } one] }] }

theorem SourceUnit.compile_confined_vault :
    ∃ m main keeper turn guard, vault.compile { caseSensitive := some false } = .ok m ∧
      m.routines = [main,keeper,turn,guard] ∧ turn.name = "KEEPER.TURN" ∧
      turn.outerNames = ["GOLD","GOLD"] ∧ (∀ x ∈ vault.routines.head?, x.Shares false "GOLD") ∧
      guard.outerNames = [] := by
  have hview : ((vault.compile { caseSensitive := some false }).toOption.bind fun m =>
      m.routines[2]?.map (·.outerNames)) = some ["GOLD","GOLD"] := by decide +kernel
  obtain ⟨m,turn,hm,hturn,hnames⟩ := exists_of_routine hview
  obtain ⟨_,main,rest,hroutines,hall⟩ := SourceUnit.compile_confined rfl hm
  rw [hroutines] at hturn
  cases hall with
  | @cons _ keeper _ _ _ hall =>
    cases hall with
    | @cons _ turn' _ _ hinner hall =>
      cases hall with
      | @cons _ guard _ _ hguard hall =>
        cases hall
        obtain rfl : turn' = turn := Option.some.inj hturn
        refine ⟨m,main,keeper,turn',guard,hm,hroutines,hinner.1.trans (by decide +kernel),hnames,?_,?_⟩
        · intro x hx
          obtain rfl := Option.some.inj hx
          exact hinner.2.1 "GOLD" (by rw [hnames]; exact List.mem_cons_self) _
            (List.mem_cons_of_mem _ List.mem_cons_self) rfl
        · refine hguard.2.2 ⟨_,List.mem_cons_self,rfl,fun line names hmem => ?_⟩
          simp [Stmt.flattenAll,Stmt.flatten] at hmem

end StackCompiler
