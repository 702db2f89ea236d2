import StackCompiler.Proofs.Completion
import StackCompiler.Proofs.EvaluatedScopes
import StackCompiler.Proofs.Links
import StackCompiler.Proofs.SourceBodies

/-! The bodies behind the routines of a module.
Each routine of a unit without diagnostics is the code of a body that was taken up in a known state:
the scopes are sound and those of the source, the parameters have the first slots, and the labels have
numbers of their own. The routines stand in the order of the program, no two under one name. -/
namespace StackCompiler.Lowering

open Lower Code Assemble Evaluation

section params

variable (t : SymbolTable)

theorem indexed_paramFrame (frame : Frame) (params : List Param) (h : frame.Indexed) :
    (paramFrame t frame params).Indexed := by
  induction params generalizing frame with
  | nil => exact h
  | cons x rest ih => exact ih _ (h.push _ _ _)

/-- Parameters follow the slots that are there, in their order. -/
theorem map_paramFrame {α : Type} {f : SlotInfo → α} {g : Param → α}
    (h : ∀ n x, f ⟨n,x.type,.parameter,[(t.keyed x.symbol).key]⟩ = g x) (frame : Frame)
    (params : List Param) : (paramFrame t frame params).map f = frame.map f ++ params.map g := by
  induction params generalizing frame with
  | nil => simp [paramFrame]
  | cons x rest ih =>
    have hrest := ih (frame.param (t.keyed x.symbol).key x.type)
    rw [Frame.param,Frame.push,List.map_append,List.append_assoc,List.map_singleton,h] at hrest
    exact hrest

theorem length_paramFrame (params : List Param) : (paramFrame t [] params).length = params.length := by
  have hslots := congrArg List.length
    (map_paramFrame t (f := SlotInfo.type) (g := Param.type) (fun _ _ => rfl) [] params)
  simpa using hslots

theorem take_of_paramFrame {params : List Param} {frame : Frame}
    (h : paramFrame t [] params <+: frame) :
    (frame.take params.length).map (fun slot => (slot.kind,slot.type)) =
      params.map fun x => (SlotKind.parameter,x.type) := by
  have htake := List.prefix_iff_eq_take.mp h
  rw [length_paramFrame] at htake
  rw [← htake]
  exact map_paramFrame t (fun _ _ => rfl) [] params

end params

/-- The routines that were finished between two points. -/
def Progress.since (p p' : Progress) : List RoutineCode := p'.routines.drop p.routines.length

theorem Progress.Grows.since_subset {p q p' : Progress} (h : q.Grows p') : p.since q ⊆ p.since p' := by
  intro rc hrc
  obtain ⟨more,hmore⟩ := h.routines
  rw [Progress.since,← hmore,List.drop_append]
  exact List.mem_append_left _ hrc

theorem Progress.since_subset_since {p q p' : Progress} (h : p.routines <+: q.routines) :
    q.since p' ⊆ p.since p' :=
  List.drop_subset_drop_left _ h.length_le

theorem balanced_of_gives {α : Type} {x : Assemble α} {a : α} {p p' : Progress}
    (h : x.Gives p a p') (hx : x.Settles p) : p.Balanced p' := by
  obtain ⟨b,q,hq,hbalanced⟩ := hx
  cases hq.symm.trans h
  exact hbalanced

theorem Progress.Balanced.normalize {p p' : Progress} (h : p.Balanced p') (name : String) :
    p'.scopes.normalize name = p.scopes.normalize name := by
  rw [ScopeStack.normalize_eq,ScopeStack.normalize_eq]
  exact congrArg (fun o => StackCompiler.normalize o.2 name) h.outline

theorem State.Changes.around {r : Routine} {s s' : State} (h : s.Changes r s')
    (hd : s.scopes.depth = r.depth) : s'.scopes.around = s.scopes.around := by
  induction h with
  | refl => rfl
  | tail hbefore hstep ih =>
    rw [← ih]
    cases hstep with
    | touch found line => exact ScopeStack.around_of_forget (ScopeStack.forget_touch _ found line)
    | share hshare => exact ScopeStack.around_share hshare
    | declare hr hdecl =>
      obtain ⟨_,_,_,_,rfl⟩ := declare_cases hdecl
      refine ScopeStack.around_add ?_ _
      rw [ScopeStack.depth_of_outline (State.Changes.outline hbefore),hd]
      exact hr
    | label | record | temp | slot | result => rfl

theorem bodySymbols_of_forget {env scopes : ScopeStack} (h : env.forget = scopes.forget) :
    bodySymbols env = bodySymbols scopes := by
  have hkeyed := ScopeStack.keyed_of_forget h
  have hnormal : env.normalize = scopes.normalize := funext fun _ => ScopeStack.normalize_of_forget h
  have hnested : nestedSymbol env = nestedSymbol scopes := by
    funext parent x
    rw [nestedSymbol,nestedSymbol,hkeyed,hnormal]
  have hlabel : labelSymbol env.current = labelSymbol scopes.current := by
    funext x
    rw [labelSymbol,labelSymbol,hkeyed]
  funext entry params nested body
  rw [bodySymbols,bodySymbols,hkeyed,hnested,hlabel]

/-- The closing return of a body leaves the scopes as they are. -/
theorem exists_body {r : Routine} {step : Lower Code} {s s' : State} {code : Code}
    (h : (bodyCode r step).Gives s code s') :
    ∃ body t more, step.Gives s body t ∧ t.Changes r s' ∧ s'.scopes = t.scopes ∧
      code = body ++ more := by
  obtain ⟨body,t,hbody,hrest⟩ := gives_bodyCode.mp h
  rcases hrest with ⟨_,rfl,rfl⟩ | ⟨_,more,hmore,rfl⟩
  · exact ⟨code,s',[],hbody,.refl,rfl,(List.append_nil _).symm⟩
  · refine ⟨body,t,more,hbody,changes_of_gives hmore stays_epilogue,?_,rfl⟩
    cases epilogue_cases hmore <;> rfl

theorem agrees_bodyCode {r : Routine} {xs : List Stmt} {env : ScopeStack} {s s' : State} {code : Code}
    (h : (bodyCode r (stmts r xs)).Gives s code s') (herr : s'.errors = s.errors)
    (he : s.Agrees env) : s'.Agrees (afterAll r.setting env xs) := by
  obtain ⟨_,t,_,hbody,hchanges,hscopes,_⟩ := exists_body h
  have ht := changes_of_gives hbody (stays_stmts r xs s)
  obtain ⟨herr',_⟩ := State.errors_eq ht.errors hchanges.errors herr
  have hagrees := agrees_stmts xs hbody herr' he
  rwa [State.Agrees,← hscopes] at hagrees

theorem agrees_allocateAll {r : Routine} {env : ScopeStack} : ∀ (ds : List Declaration) {s : State}
    {code : Code} {s' : State}, (allocateAll r ds).Gives s code s' → s'.errors = s.errors →
    s.Agrees env → s'.Agrees env
  | [], _, _, _, h, _, he => by
    rw [allocateAll] at h
    rw [(gives_pure.mp h).2]
    exact he
  | d :: rest, s, _, _, h, herr, he => by
    obtain ⟨first,t,more,hd,hrest,_⟩ := gives_allocateAll_cons.mp h
    have hstays : (allocateGlobal r d).Stays r s := stays_allocateGlobal
    have ht := changes_of_gives hd (stays_recover hstays)
    have hs := changes_of_gives hrest (stays_allocateAll r rest t)
    obtain ⟨herr₁,herr₂⟩ := State.errors_eq ht.errors hs.errors herr
    exact agrees_allocateAll rest hrest herr₂
      (agrees_allocateGlobal (gives_of_recover hd hstays herr₁) he)

/-- The main program makes the arrays of the outermost scope, then it does what its statements say. -/
theorem mainBody_ok {r : Routine} {u : SourceUnit} {env : ScopeStack} {s s' : State} {code : Code}
    (h : (mainBody r u).Gives s code s') (herr : s'.errors = s.errors) (he : s.Agrees env) :
    ∃ arrays t part, (allocateAll r u.globals).Gives s arrays t ∧ t.errors = s.errors ∧ t.Agrees env ∧
      (stmts r u.main).Gives t part s' ∧ s'.errors = t.errors ∧ code = arrays ++ part := by
  simp only [mainBody,gives_bind,gives_pure] at h
  obtain ⟨arrays,t,harrays,part,_,hpart,rfl,rfl⟩ := h
  have ht := changes_of_gives harrays (stays_allocateAll r u.globals s)
  have hs := changes_of_gives hpart (stays_stmts r u.main t)
  obtain ⟨herr₁,herr₂⟩ := State.errors_eq ht.errors hs.errors herr
  exact ⟨arrays,t,part,harrays,herr₁,agrees_allocateAll u.globals harrays herr₁ he,hpart,herr₂,rfl⟩

theorem agrees_mainCode {r : Routine} {u : SourceUnit} {env : ScopeStack} {s s' : State} {code : Code}
    (h : (bodyCode r (mainBody r u)).Gives s code s') (herr : s'.errors = s.errors)
    (he : s.Agrees env) : s'.Agrees (afterAll r.setting env u.main) := by
  obtain ⟨_,t,_,hbody,hchanges,hscopes,_⟩ := exists_body h
  have ht := changes_of_gives hbody (stays_mainBody r u s)
  obtain ⟨herr',_⟩ := State.errors_eq ht.errors hchanges.errors herr
  obtain ⟨_,_,_,_,_,hagrees,hpart,hpartErr,_⟩ := mainBody_ok hbody herr' he
  have hbehind := agrees_stmts u.main hpart hpartErr hagrees
  rwa [State.Agrees,← hscopes] at hbehind

namespace Prepared

variable {language : Language} {entry : String} {x : StackCompiler.Routine} {p : Progress}

theorem depth_start (b : Prepared language entry x p) :
    b.start.scopes.depth = b.routine.depth := by
  obtain ⟨hhandle,hscopes,_⟩ := push_eq_ok b.opened
  change (b.scopes.add _).depth = b.handle.depth
  rw [ScopeStack.depth_add,hscopes,hhandle]

theorem depth_ne_zero (b : Prepared language entry x p) : b.routine.depth ≠ 0 := by
  change b.handle.depth ≠ 0
  rw [(push_eq_ok b.opened).1]
  exact Nat.succ_ne_zero _

theorem caseSensitive_start (b : Prepared language entry x p) :
    b.start.scopes.caseSensitive = p.scopes.caseSensitive := by
  have hpush := (push_eq_ok b.opened).2.2.2
  calc b.start.scopes.caseSensitive = b.scopes.caseSensitive := ScopeStack.caseSensitive_add _ _
    _ = p.scopes.caseSensitive := congrArg (·.table.caseSensitive) hpush

theorem rule_current (b : Prepared language entry x p) :
    b.scopes.current.caseSensitive = b.start.scopes.caseSensitive := by
  rw [(push_eq_ok b.opened).2.2.1,b.caseSensitive_start]

theorem params_finished (b : Prepared language entry x p) {s : State} (code : Code)
    (h : b.start.Changes b.routine s) :
    ((b.finished s.frame code).frame.take x.params.length).map (fun slot => (slot.kind,slot.type)) =
      x.params.map fun y => (SlotKind.parameter,y.type) :=
  take_of_paramFrame b.scopes.current h.frame.slots

theorem linked (b : Prepared language entry x p) {s : State} {code : Code}
    (h : b.start.Changes b.routine s) {final : List RoutineCode}
    (hmem : b.finished s.frame code ∈ final) :
    Linked final entry (x.params.map Param.type) (.scalar x.returns) := by
  refine ⟨_,hmem,rfl,?_,rfl⟩
  have hparams := congrArg (List.map Prod.snd) (b.params_finished code h)
  rw [List.map_map,List.map_map] at hparams
  exact hparams

theorem agrees (b : Prepared language entry x p) {env : ScopeStack}
    (henv : env.forget = p.scopes.forget) : b.start.Agrees (enter env entry x) := by
  obtain ⟨_,inner,hpush,hinner⟩ := ScopeStack.push_of_forget henv b.opened
  change (enter env entry x).forget = (b.scopes.add _).forget
  rw [enter,hpush]
  change (inner.add _).forget = _
  rw [ScopeStack.forget_add,ScopeStack.forget_add,hinner,bodySymbols_of_forget hinner]

theorem setting_routine (b : Prepared language entry x p) {env : ScopeStack}
    (henv : env.forget = p.scopes.forget) :
    b.routine.setting = ⟨language,env.depth + 1,x.returns⟩ := by
  change Setting.mk language b.handle.depth x.returns = _
  rw [(push_eq_ok b.opened).1,ScopeStack.depth_of_forget henv]

theorem agrees_behind (b : Prepared language entry x p) {env : ScopeStack} {code : Code} {s : State}
    (henv : env.forget = p.scopes.forget)
    (hbody : (bodyCode b.routine (stmts b.routine x.body)).Gives b.start code s)
    (herr : s.errors = b.start.errors) :
    s.Agrees (afterAll ⟨language,env.depth + 1,x.returns⟩ (enter env entry x) x.body) := by
  rw [← b.setting_routine henv]
  exact agrees_bodyCode hbody herr (b.agrees henv)

theorem around (b : Prepared language entry x p) {s : State} (h : b.start.Changes b.routine s) :
    s.scopes.around = p.scopes.forget := by
  have hdepth : b.scopes.depth ≠ 0 := by
    rw [(push_eq_ok b.opened).2.1]
    exact Nat.succ_ne_zero _
  calc s.scopes.around = b.start.scopes.around := h.around b.depth_start
    _ = b.scopes.around := ScopeStack.around_add hdepth _
    _ = p.scopes.forget := ScopeStack.around_push b.opened

theorem forget_pop (b : Prepared language entry x p) {s : State} {q scopes : ScopeStack}
    {table : SymbolTable} (h : b.start.Changes b.routine s) (hq : q.forget = s.scopes.forget)
    (hpop : q.pop b.handle = (.ok table,scopes)) : scopes.forget = p.scopes.forget :=
  calc scopes.forget = q.around := ScopeStack.forget_pop hpop
    _ = s.scopes.around := ScopeStack.around_of_forget hq
    _ = p.scopes.forget := b.around h

end Prepared

theorem Progress.mem_since {p p' : Progress} {rc : RoutineCode}
    (h : p.routines ++ [rc] <+: p'.routines) : rc ∈ p.since p' := by
  obtain ⟨more,hmore⟩ := h
  rw [Progress.since,← hmore,List.append_assoc,List.drop_left]
  exact List.mem_cons_self

theorem linked_routine {language : Language} {x : StackCompiler.Routine} {entry : String} {u : Unit}
    {p p' : Progress} (h : (routine language entry x).Gives p u p') (he : p'.errors = []) :
    Linked (p.since p') entry (x.params.map Param.type) (.scalar x.returns) := by
  obtain ⟨b,code,s,v,q,table,scopes,hbody,_,_,hroutines,_,rfl⟩ :=
    routine_ok h he (grows_routines language x.routines)
  have hchanges := changes_of_gives hbody (stays_bodyCode (stays_stmts _ _ _))
  have hgrows := grows_routines language x.routines hroutines
  exact b.linked hchanges (Progress.mem_since (hgrows.routines :))

theorem linked_routines {language : Language} {parent : String} : ∀ (xs : List StackCompiler.Routine)
    {u : Unit} {p p' : Progress}, (routines language parent xs).Gives p u p' → p'.errors = [] →
    ∀ x ∈ xs, Linked (p.since p') (nestedEntry parent (p.scopes.normalize x.name))
      (x.params.map Param.type) (.scalar x.returns)
  | [], _, _, _, _, _ => by simp
  | x :: rest, _, _, _, h, he => by
    rw [routines] at h
    simp only [gives_bind,gives_keyOf] at h
    obtain ⟨_,p,⟨rfl,rfl⟩,_,q,hx,h⟩ := h
    have hgrows := grows_routines language rest h
    have hbalanced := balanced_of_gives hx (settles_routine language x _ _)
    intro y hy
    rcases List.mem_cons.mp hy with rfl | hy
    · exact (linked_routine hx (hgrows.errors_nil he)).mono hgrows.since_subset
    · rw [← hbalanced.normalize]
      exact (linked_routines rest h he y hy).mono
        (Progress.since_subset_since (grows_routine language x hx).routines)

theorem linked_topLevel {language : Language} : ∀ (xs : List StackCompiler.Routine) {u : Unit}
    {p p' : Progress}, (topLevel language xs).Gives p u p' → p'.errors = [] →
    ∀ x ∈ xs, Linked (p.since p') (p.scopes.normalize x.name)
      (x.params.map Param.type) (.scalar x.returns)
  | [], _, _, _, _, _ => by simp
  | x :: rest, _, _, _, h, he => by
    simp only [topLevel,gives_bind,gives_keyOf] at h
    obtain ⟨_,p,⟨rfl,rfl⟩,_,q,hx,h⟩ := h
    have hgrows := grows_topLevel language rest h
    have hbalanced := balanced_of_gives hx (settles_routine language x _ _)
    intro y hy
    rcases List.mem_cons.mp hy with rfl | hy
    · exact (linked_routine hx (hgrows.errors_nil he)).mono hgrows.since_subset
    · rw [← hbalanced.normalize]
      exact (linked_topLevel rest h he y hy).mono
        (Progress.since_subset_since (grows_routine language x hx).routines)

theorem Prepared.sound_start {final : List RoutineCode} {ground : ScopeStack} {language : Language}
    {entry : String} {x : StackCompiler.Routine} {p : Progress} (b : Prepared language entry x p)
    (hp : Sound final ground p.scopes)
    (hnested : ∀ y ∈ x.routines, Linked final (nestedEntry entry (p.scopes.normalize y.name))
      (y.params.map Param.type) (.scalar y.returns)) :
    Sound final ground b.start.scopes := by
  have hdepth : b.scopes.depth ≠ 0 := by
    rw [(push_eq_ok b.opened).2.1]
    exact Nat.succ_ne_zero _
  have hrule : b.scopes.caseSensitive = p.scopes.caseSensitive :=
    congrArg (·.table.caseSensitive) (push_eq_ok b.opened).2.2.2
  refine (hp.push b.opened).add hdepth fun symbol hsymbol => ?_
  rcases List.mem_append.mp hsymbol with hsymbol | hsymbol
  · rcases List.mem_append.mp hsymbol with hsymbol | hsymbol
    · obtain ⟨y,_,rfl⟩ := List.mem_map.mp hsymbol
      exact Symbol.stands_of_cls nofun nofun
    · obtain ⟨y,hy,rfl⟩ := List.mem_map.mp hsymbol
      refine ⟨fun _ => ?_,nofun⟩
      have hlinked := hnested y hy
      rw [ScopeStack.normalize_eq,← hrule] at hlinked
      exact hlinked
  · obtain ⟨y,_,rfl⟩ := List.mem_map.mp hsymbol
    exact Symbol.stands_of_cls nofun nofun

/-- Under flat scoping a scope is opened only from the outermost one. -/
theorem depth_of_push {s s' : ScopeStack} {name : String} {discipline : Discipline}
    {handle : ScopeHandle} (h : s.push name discipline = (.ok handle,s'))
    (hs : s.scoping = .flat) : s.depth = 0 := by
  unfold ScopeStack.push at h
  split at h
  · cases h
  · next hn =>
    rw [hs] at hn
    have hg : s.isGlobal = true := by simpa using hn
    exact List.length_eq_zero_iff.mpr (List.isEmpty_iff.mp hg)

theorem nil_of_flat {language : Language} {parent : String} {xs : List StackCompiler.Routine}
    {u : Unit} {p p' : Progress} (h : (routines language parent xs).Gives p u p')
    (he : p'.errors = []) (hs : p.scopes.scoping = .flat) (hd : p.scopes.depth ≠ 0) : xs = [] := by
  cases xs with
  | nil => rfl
  | cons x rest =>
    rw [routines] at h
    simp only [gives_bind,gives_keyOf] at h
    obtain ⟨_,p,⟨rfl,rfl⟩,_,q,hx,h⟩ := h
    have hq := (grows_routines language rest h).errors_nil he
    obtain ⟨b,_⟩ := routine_ok hx hq (grows_routines language x.routines)
    exact absurd (depth_of_push b.opened hs) hd

/-- Labels that are declared in one table have different keys. -/
theorem nodup_keys_of_distinct {t : SymbolTable} {before : List Symbol} {names : List (Line × String)}
    (h : SymbolTable.Distinct { t with symbols := before ++ names.map (labelSymbol t) }) :
    (names.map fun x => normalize t.caseSensitive x.2).Nodup := by
  rw [SymbolTable.Distinct,List.map_append,List.map_map] at h
  exact (List.nodup_append.mp h).2.1

theorem Prepared.numbers_start {language : Language} {entry : String} {x : StackCompiler.Routine}
    {p : Progress} (b : Prepared language entry x p) :
    b.routine.Numbers b.start.scopes.caseSensitive (Stmt.flattenAll x.body) p.nextLabel := by
  have hkeys := b.keys
  rw [← b.rule_current]
  refine ⟨hkeys,?_,b.numbers⟩
  change (b.labels.map Prod.fst).Nodup
  have hdistinct := b.distinct
  rw [ScopeStack.current_add,bodySymbols,← List.append_assoc] at hdistinct
  rw [hkeys]
  exact nodup_keys_of_distinct hdistinct

theorem PreparedMain.numbers_start {u : SourceUnit} {p : Progress} (b : PreparedMain u p)
    (hrule : p.scopes.current.caseSensitive = p.scopes.caseSensitive) :
    b.routine.Numbers b.start.scopes.caseSensitive (Stmt.flattenAll u.main) p.nextLabel := by
  have hkeys := b.keys
  rw [show b.start.scopes.caseSensitive = _ from ScopeStack.caseSensitive_add _ _,← hrule]
  refine ⟨hkeys,?_,b.numbers⟩
  change (b.labels.map Prod.fst).Nodup
  have hdistinct := b.distinct
  rw [ScopeStack.current_add] at hdistinct
  rw [hkeys]
  exact nodup_keys_of_distinct hdistinct

/-- No two finished routines have the same name or define the same label, the numbers of their labels
have been given out, and names lead to them. -/
structure Progress.Orderly (p : Progress) : Prop where
  listed : p.Listed
  names : (p.routines.map RoutineCode.name).Nodup
  labels : (p.routines.flatMap (·.code.labels)).Nodup
  below : ∀ rc ∈ p.routines, ∀ l ∈ rc.code.labels, l < p.nextLabel

theorem Progress.Orderly.name_ne {p : Progress} (h : p.Orderly) {name : String}
    (hname : p.entryPoints.lookup name = none) {x : RoutineCode} (hx : x ∈ p.routines) :
    x.name ≠ name := by
  intro he
  exact h.listed.lookup_ne_none.mpr ⟨x,hx,he⟩ hname

theorem Progress.Orderly.add {p q : Progress} {rc : RoutineCode} (h : p.Orderly)
    (hroutines : q.routines = p.routines) (hentries : q.entryPoints = p.entryPoints)
    (hname : p.entryPoints.lookup rc.name = none)
    (hlabels : rc.code.labels.Nodup) (hnext : p.nextLabel ≤ q.nextLabel)
    (hrange : ∀ l ∈ rc.code.labels, p.nextLabel ≤ l ∧ l < q.nextLabel) : (q.add rc).Orderly := by
  have hadd : (q.add rc).routines = p.routines ++ [rc] := by
    rw [← hroutines]
    rfl
  constructor
  · have hlisted : q.Listed := by
      rw [Progress.Listed,hentries,hroutines]
      exact h.listed
    exact hlisted.add rc
  · rw [hadd,List.map_append]
    refine List.nodup_append.mpr ⟨h.names,List.nodup_singleton _,?_⟩
    rintro name hmem _ hlast rfl
    obtain ⟨x,hx,rfl⟩ := List.mem_map.mp hmem
    exact h.name_ne hname hx (List.mem_singleton.mp hlast)
  · rw [hadd,List.flatMap_append]
    refine List.nodup_append.mpr ⟨h.labels,by simpa using hlabels,?_⟩
    rintro l hmem _ hlast rfl
    obtain ⟨x,hx,hl⟩ := List.mem_flatMap.mp hmem
    have hbelow := h.below x hx l hl
    have habove := (hrange l (by simpa using hlast)).1
    exact Nat.lt_irrefl _ (Nat.lt_of_lt_of_le hbelow habove)
  · rw [hadd]
    intro x hx l hl
    rcases List.mem_append.mp hx with hx | hx
    · exact Nat.lt_of_lt_of_le (h.below x hx l hl) hnext
    · rw [List.mem_singleton.mp hx] at hl
      exact (hrange l hl).2

/-- The body is taken up in the scopes that the source gives it. -/
structure Prepared.Takes {language : Language} {entry : String} {x : StackCompiler.Routine}
    {p : Progress} (b : Prepared language entry x p) (body : Body) : Prop where
  setting : b.routine.setting = body.setting
  scopes : b.start.Agrees body.scopes
  arrays : body.arrays = []

theorem Prepared.takes {language : Language} {entry : String} {x : StackCompiler.Routine}
    {p : Progress} (b : Prepared language entry x p) {env : ScopeStack}
    (henv : env.forget = p.scopes.forget) :
    b.Takes ⟨⟨language,env.depth + 1,x.returns⟩,enter env entry x,x,[]⟩ :=
  ⟨b.setting_routine henv,b.agrees henv,rfl⟩

/-- The body was put into code from a prepared state, without diagnostics. The routines that were taken
up in the outermost scope are given, and under flat scoping no routine has others inside. -/
inductive Finished (language : Language) (final : List RoutineCode) (ground : ScopeStack)
    (tops : List StackCompiler.Routine) : Body → RoutineCode → Prop
  | intro (body : Body) {entry : String} {p : Progress} (b : Prepared language entry body.routine p)
    {code : Code} {s : State} (htakes : b.Takes body)
    (hbefore : Sound final ground p.scopes) (hstart : Sound final ground b.start.scopes)
    (hbody : (bodyCode b.routine (stmts b.routine body.routine.body)).Gives b.start code s)
    (herrors : b.start.errors = [] ∧ s.errors = []) (htop : p.scopes.depth = 0 → body.routine ∈ tops)
    (hflat : ground.scoping = .flat → body.routine.routines = []) :
    Finished language final ground tops body (b.finished s.frame code)

theorem Finished.mono {language : Language} {final more : List RoutineCode} {ground : ScopeStack}
    {tops : List StackCompiler.Routine} {body : Body} {rc : RoutineCode} (hf : final ⊆ more)
    (h : Finished language final ground tops body rc) :
    Finished language more ground tops body rc := by
  obtain ⟨b,htakes,hbefore,hstart,hbody,herrors,htop,hflat⟩ := h
  exact .intro _ b htakes (hbefore.mono hf) (hstart.mono hf) hbody herrors htop hflat

section adds

variable (language : Language) (final : List RoutineCode) (ground : ScopeStack)
  (tops : List StackCompiler.Routine)

/-- From sound scopes and in order, the given bodies are added and finished. -/
def Adds (bs : List Body) (p p' : Progress) : Prop :=
  p.since p' ⊆ final → Sound final ground p.scopes → p.Orderly →
    Sound final ground p'.scopes ∧ p'.Orderly ∧ ∃ added, p'.routines = p.routines ++ added ∧
      List.Forall₂ (Finished language final ground tops) bs added

variable {language final ground tops}

theorem Adds.nil (p : Progress) : Adds language final ground tops [] p p :=
  fun _ hs ho => ⟨hs,ho,[],(List.append_nil _).symm,.nil⟩

theorem Adds.append {bs cs : List Body} {p q p' : Progress}
    (h₁ : Adds language final ground tops bs p q) (h₂ : Adds language final ground tops cs q p')
    (hp : p.Grows q) (hq : q.Grows p') : Adds language final ground tops (bs ++ cs) p p' := by
  intro hfinal hs ho
  obtain ⟨hs',ho',added,hq,hadded⟩ := h₁ (fun _ hrc => hfinal (hq.since_subset hrc)) hs ho
  obtain ⟨hs'',ho'',more,hp',hmore⟩ :=
    h₂ (fun _ hrc => hfinal (Progress.since_subset_since hp.routines hrc)) hs' ho'
  refine ⟨hs'',ho'',added ++ more,?_,List.rel_append hadded hmore⟩
  rw [hp',hq,List.append_assoc]

end adds

section restored

variable {language : Language}

mutual

/-- A routine that is put into code leaves the scopes as they were. -/
theorem forget_routine : ∀ (x : StackCompiler.Routine) {entry : String} {u : Unit} {p p' : Progress},
    (routine language entry x).Gives p u p' → p'.errors = [] → p'.scopes.forget = p.scopes.forget
  | ⟨name,discipline,params,returns,body,nested,line⟩, entry, u, p, p', h, he => by
    obtain ⟨b,code,s,v,q,table,scopes,hbody,hs,_,hroutines,hpop,rfl⟩ :=
      routine_ok h he (grows_routines language nested)
    have hchanges := changes_of_gives hbody (stays_bodyCode (stays_stmts _ _ _))
    exact b.forget_pop hchanges (forget_routines nested hroutines he) hpop

theorem forget_routines : ∀ (xs : List StackCompiler.Routine) {parent : String} {u : Unit}
    {p p' : Progress}, (routines language parent xs).Gives p u p' → p'.errors = [] →
    p'.scopes.forget = p.scopes.forget
  | [], _, _, _, _, h, _ => by
    rw [routines] at h
    rw [(gives_pure.mp h).2]
  | x :: rest, _, _, _, _, h, he => by
    rw [routines] at h
    simp only [gives_bind,gives_keyOf] at h
    obtain ⟨_,_,⟨rfl,rfl⟩,_,q,hx,h⟩ := h
    have hq := (grows_routines language rest h).errors_nil he
    exact (forget_routines rest h he).trans (forget_routine x hx hq)

end

end restored

section routines

variable {final : List RoutineCode} {ground : ScopeStack} {tops : List StackCompiler.Routine}

mutual

/-- A routine adds its own code and that of the routines inside it. -/
theorem adds_routine (language : Language) : ∀ (x : StackCompiler.Routine) {entry : String}
    {u : Unit} {p p' : Progress} {env : ScopeStack}, (routine language entry x).Gives p u p' →
    p'.errors = [] → env.forget = p.scopes.forget → (p.scopes.depth = 0 → x ∈ tops) →
    Adds language final ground tops (routineBodies language env entry x) p p'
  | ⟨name,discipline,params,returns,body,nested,line⟩, entry, u, p, p', env, h, he, henv, htop => by
    intro hfinal hp horder
    obtain ⟨b,code,s,v,q,table,scopes,hbody,hs,hnew,hroutines,hpop,rfl⟩ :=
      routine_ok h he (grows_routines language nested)
    have hchanges := changes_of_gives hbody (stays_bodyCode (stays_stmts _ _ _))
    have hmore : ((b.progress.after s).add (b.finished s.frame code)).since q ⊆ final := fun _ hrc =>
      hfinal (Progress.since_subset_since (List.prefix_append p.routines _) hrc)
    have hstart : Sound final ground b.start.scopes := b.sound_start hp fun y hy => by
      have hlinked := linked_routines nested hroutines he y hy
      rw [ScopeStack.normalize_eq,show ((b.progress.after s).add _).scopes.caseSensitive = _ from
        hchanges.caseSensitive,b.caseSensitive_start] at hlinked
      exact hlinked.mono hmore
    have hsound := hstart.changes b.depth_start hchanges
    have hdepth : s.scopes.depth ≠ 0 := by
      rw [ScopeStack.depth_of_outline hchanges.outline,b.depth_start]
      exact b.depth_ne_zero
    have hflat : ground.scoping = .flat → nested = [] := fun hscoping =>
      nil_of_flat hroutines he (by rw [← hscoping,← hsound.outer]; rfl) hdepth
    have horder' : ((b.progress.after s).add (b.finished s.frame code)).Orderly := by
      have hfrom := labelsFrom_bodyCode (labelsFrom_stmts b.routine b.start.scopes.caseSensitive body)
      have hle : p.nextLabel ≤ b.start.nextLabel := Nat.le_add_right _ _
      exact horder.add rfl rfl hnew
        (hfrom.nodup hbody hstart.uniform b.numbers_start (Nat.le_refl _))
        (Nat.le_trans hle hchanges.nextLabel_le)
        (hfrom.mem_range hbody hstart.uniform b.numbers_start (Nat.le_refl _) hchanges.nextLabel_le)
    have herrors : b.start.errors = [] := List.prefix_nil.mp (hs ▸ hchanges.errors)
    have hbehind := b.agrees_behind henv hbody (hs.trans herrors.symm)
    obtain ⟨hsound',horder'',added,hq,hadded⟩ :=
      adds_routines language nested hroutines he hbehind hdepth hmore hsound horder'
    refine ⟨hsound'.pop hpop,⟨horder''.listed,horder''.names,horder''.labels,horder''.below⟩,
      b.finished s.frame code :: added,?_,?_⟩
    · rw [hq]
      exact List.append_assoc _ _ _
    · rw [routineBodies]
      exact .cons (.intro ⟨_,_,_,_⟩ b (b.takes henv) hp hstart hbody ⟨herrors,hs⟩ htop hflat) hadded

theorem adds_routines (language : Language) : ∀ (xs : List StackCompiler.Routine) {parent : String}
    {u : Unit} {p p' : Progress} {env : ScopeStack}, (routines language parent xs).Gives p u p' →
    p'.errors = [] → env.forget = p.scopes.forget → p.scopes.depth ≠ 0 →
    Adds language final ground tops (nestedBodies language env parent xs) p p'
  | [], _, _, _, _, _, h, _, _, _ => by
    rw [routines] at h
    rw [(gives_pure.mp h).2,nestedBodies]
    exact .nil _
  | x :: rest, _, _, _, _, _, h, he, henv, hdepth => by
    rw [routines] at h
    simp only [gives_bind,gives_keyOf] at h
    obtain ⟨_,_,⟨rfl,rfl⟩,_,q,hx,h⟩ := h
    have hgrows := grows_routines language rest h
    have hbalanced := balanced_of_gives hx (settles_routine language x _ _)
    have hq : q.scopes.depth ≠ 0 := by
      rw [ScopeStack.depth_of_outline hbalanced.outline]
      exact hdepth
    have henv' := henv.trans (forget_routine x hx (hgrows.errors_nil he)).symm
    rw [nestedBodies,ScopeStack.normalize_of_forget henv]
    exact (adds_routine language x hx (hgrows.errors_nil he) henv fun hz => absurd hz hdepth).append
      (adds_routines language rest h he henv' hq) (grows_routine language x hx) hgrows

end

theorem adds_topLevel (language : Language) {env : ScopeStack} : ∀ (xs : List StackCompiler.Routine)
    {u : Unit} {p p' : Progress}, (topLevel language xs).Gives p u p' → p'.errors = [] →
    env.forget = p.scopes.forget → xs ⊆ tops →
    Adds language final ground tops (topBodies language env xs) p p'
  | [], _, _, _, h, _, _, _ => by
    rw [topLevel] at h
    rw [(gives_pure.mp h).2]
    exact .nil _
  | x :: rest, _, _, _, h, he, henv, hsub => by
    simp only [topLevel,gives_bind,gives_keyOf] at h
    obtain ⟨_,_,⟨rfl,rfl⟩,_,q,hx,h⟩ := h
    have hgrows := grows_topLevel language rest h
    obtain ⟨hmem,hrest⟩ := List.cons_subset.mp hsub
    have henv' := henv.trans (forget_routine x hx (hgrows.errors_nil he)).symm
    rw [topBodies,List.flatMap_cons,ScopeStack.normalize_of_forget henv]
    exact (adds_routine language x hx (hgrows.errors_nil he) henv fun _ => hmem).append
      (adds_topLevel language rest h he henv' hrest) (grows_routine language x hx) hgrows

end routines

/-- What stays fixed in the main program: its labels are numbered from zero on. -/
def mainRoutine (u : SourceUnit) (caseSensitive : Bool) : Routine where
  language := u.language
  entry := normalize caseSensitive u.name
  depth := 0
  returns := .void
  labels := ((labelNames (Stmt.flattenAll u.main)).map fun x => normalize caseSensitive x.2).zipIdx

/-- The state in which the main program is taken up: everything of the outermost scope is declared, and
its labels have numbers. -/
def mainStart (u : SourceUnit) (caseSensitive : Bool) : State where
  scopes := outermost u caseSensitive
  nextLabel := (labelNames (Stmt.flattenAll u.main)).length

/-- The main program was put into code from a prepared state, without diagnostics. -/
inductive FinishedMain (u : SourceUnit) (caseSensitive : Bool) (final : List RoutineCode)
    (ground : ScopeStack) : RoutineCode → Prop
  | intro {p : Progress} (b : PreparedMain u p) {code : Code} {s : State}
    (hroutine : b.routine = mainRoutine u caseSensitive) (hmain : b.start = mainStart u caseSensitive)
    (hrule : p.scopes.current.caseSensitive = p.scopes.caseSensitive)
    (hcase : p.scopes.caseSensitive = caseSensitive)
    (hstart : Sound final ground b.start.scopes) (hdepth : b.start.scopes.depth = 0)
    (hbody : (bodyCode b.routine (mainBody b.routine u)).Gives b.start code s)
    (herrors : b.start.errors = [] ∧ s.errors = []) :
    FinishedMain u caseSensitive final ground (b.finished s.frame code)

theorem FinishedMain.mono {u : SourceUnit} {caseSensitive : Bool} {final more : List RoutineCode}
    {ground : ScopeStack} {rc : RoutineCode} (hf : final ⊆ more)
    (h : FinishedMain u caseSensitive final ground rc) :
    FinishedMain u caseSensitive more ground rc := by
  obtain ⟨b,hroutine,hmain,hrule,hcase,hstart,hdepth,hbody,herrors⟩ := h
  exact .intro b hroutine hmain hrule hcase (hstart.mono hf) hdepth hbody herrors

/-- What the outermost scope of a unit holds: the variables and constants of its declarations, its
routines, and labels; no two under one key. -/
structure Grounded (u : SourceUnit) (caseSensitive : Bool) (ground : ScopeStack) : Prop where
  rule : ground.caseSensitive = caseSensitive
  scoping : ground.scoping = u.language.scoping
  distinct : ground.global.Distinct
  stored : ∀ x ∈ ground.global.symbols, x.hasStorage = true → x.cls = .variable
  declared : ∀ d ∈ u.globals ++ mainDeclarations u.main, ∃ x ∈ ground.global.symbols,
    x.key = normalize caseSensitive d.name ∧ x.type = d.type ∧ x.cls = d.cls
  routine : ∀ y ∈ u.routines, ∃ x ∈ ground.global.symbols,
    x.key = normalize caseSensitive y.name ∧ x.type = .scalar y.returns

/-- How the module of a unit comes about: the main program first, then the routines in the order of
the program, all finished over one outermost scope. Names lead to the routines, never to the main
program. -/
structure Assembled (u : SourceUnit) (caseSensitive : Bool) (m : Module) (ground : ScopeStack)
    (main : RoutineCode) (rest : List RoutineCode) : Prop where
  routines : m.routines = main :: rest
  mainBody : FinishedMain u caseSensitive rest ground main
  bodies : List.Forall₂ (Finished u.language rest ground u.routines) (subprograms u caseSensitive) rest
  names : (m.routines.map RoutineCode.name).Nodup
  labels : (m.routines.flatMap (·.code.labels)).Nodup
  grounded : Grounded u caseSensitive ground
  globals : m.globals = globals ground.global
  entryPoints : m.entryPoints = m.routines.zipIdx.map fun r => (r.1.name,r.2)
  main : m.main = 0
  language : m.language = u.language

section assembled

variable {u : SourceUnit} {caseSensitive : Bool} {m : Module} {ground : ScopeStack}
  {main : RoutineCode} {rest : List RoutineCode}

theorem Assembled.rest_subset (h : Assembled u caseSensitive m ground main rest) :
    rest ⊆ m.routines := by
  rw [h.routines]
  exact List.subset_cons_self _ _

theorem Assembled.mainProgram (h : Assembled u caseSensitive m ground main rest) :
    FinishedMain u caseSensitive m.routines ground main :=
  h.mainBody.mono h.rest_subset

theorem Assembled.others (h : Assembled u caseSensitive m ground main rest) :
    List.Forall₂ (Finished u.language m.routines ground u.routines) (subprograms u caseSensitive) rest :=
  h.bodies.imp fun _ _ hf => hf.mono h.rest_subset

end assembled

theorem run_eq_ok {u : SourceUnit} {caseSensitive : Bool} {m : Module}
    (h : (run u caseSensitive).2 = .ok m) :
    ∃ v p, (sourceUnit u).Gives (.initial u caseSensitive) v p ∧ p.errors = [] ∧
      m = p.module u := by
  unfold run at h
  simp only at h
  split at h
  · next p hrun =>
    simp only at h
    split at h
    · next he =>
      cases h
      exact ⟨(),p,hrun,List.isEmpty_iff.mp he,rfl⟩
    · cases h
  · cases h

theorem globals_forget (t : SymbolTable) : globals t.forget = globals t := by
  unfold globals SymbolTable.forget SymbolTable.entries
  simp only [List.filter_map,List.map_map]
  rfl

section unit

variable {u : SourceUnit} {caseSensitive : Bool} {symbols : List Symbol} {p : Progress}

theorem eq_of_symbolOf {t : SymbolTable} {ds : List Declaration}
    (h : List.Forall₂ (SymbolOf t) ds symbols) :
    (ds.filterMap fun d => (declared d).toOption).map t.keyed = symbols := by
  induction h with
  | nil => rfl
  | cons hd _ ih =>
    obtain ⟨new,hnew,rfl⟩ := hd
    rw [List.filterMap_cons,hnew]
    exact congrArg (_ :: ·) ih

theorem PreparedMain.routine_eq (b : PreparedMain u p)
    (hp : p = (Progress.initial u caseSensitive).declare (symbols ++
      u.routines.map (routineSymbol (Progress.initial u caseSensitive).scopes))) :
    b.routine = mainRoutine u caseSensitive := by
  subst hp
  have hlabels := List.zip_of_prod b.keys b.numbers
  have hnames : (labelNames (Stmt.flattenAll u.main)).length =
      ((labelNames (Stmt.flattenAll u.main)).map fun x => normalize caseSensitive x.2).length :=
    (List.length_map _).symm
  rw [mainRoutine,List.zipIdx_eq_zip_range',← hnames]
  unfold routine
  rw [hlabels]
  rfl

/-- The main program is taken up in the outermost scope with all that belongs to it. -/
theorem PreparedMain.start_eq (b : PreparedMain u p)
    (hp : p = (Progress.initial u caseSensitive).declare (symbols ++
      u.routines.map (routineSymbol (Progress.initial u caseSensitive).scopes)))
    (hsymbols : List.Forall₂ (SymbolOf (Progress.initial u caseSensitive).scopes.current)
      (u.globals ++ mainDeclarations u.main) symbols) :
    b.start = mainStart u caseSensitive := by
  have hscopes : b.start.scopes = outermost u caseSensitive := by
    change p.scopes.add _ = _
    have hlabels : labelSymbol p.scopes.current =
        labelSymbol (Progress.initial u caseSensitive).scopes.current := by
      rw [hp]
      exact labelSymbol_declare _ _
    rw [hlabels,hp]
    change ((Progress.initial u caseSensitive).scopes.add (symbols ++ _)).add _ = _
    rw [ScopeStack.add_add,← eq_of_symbolOf hsymbols]
    rfl
  rw [mainStart,← hscopes]
  subst hp
  exact congrArg (State.mk _ _ · _) (Nat.zero_add _)

/-- All symbols of the outermost scope when the main program is taken up. -/
theorem symbols_ground (b : PreparedMain u p)
    (hp : p = (Progress.initial u caseSensitive).declare (symbols ++
      u.routines.map (routineSymbol (Progress.initial u caseSensitive).scopes))) :
    b.start.scopes.ground.global.symbols = (symbols ++
      u.routines.map (routineSymbol (Progress.initial u caseSensitive).scopes) ++
      (labelNames (Stmt.flattenAll u.main)).map (labelSymbol p.scopes.current)).map Symbol.forget := by
  change (p.scopes.add _).outermost.table.entries = _
  rw [hp]
  rfl

/-- They are declared, name routines or are labels of the main program. -/
theorem mem_symbols_ground (b : PreparedMain u p)
    (hp : p = (Progress.initial u caseSensitive).declare (symbols ++
      u.routines.map (routineSymbol (Progress.initial u caseSensitive).scopes)))
    (hsymbols : List.Forall₂ (SymbolOf (Progress.initial u caseSensitive).scopes.current)
      (u.globals ++ mainDeclarations u.main) symbols) {x : Symbol}
    (hx : x ∈ b.start.scopes.ground.global.symbols) :
    (∃ d y, SymbolOf (Progress.initial u caseSensitive).scopes.current d y ∧ x = y.forget) ∨
    (∃ y ∈ u.routines, x = (routineSymbol (Progress.initial u caseSensitive).scopes y).forget) ∨
    ∃ name, x = (labelSymbol p.scopes.current name).forget := by
  rw [symbols_ground b hp] at hx
  obtain ⟨x,hmem,rfl⟩ := List.mem_map.mp hx
  rcases List.mem_append.mp hmem with hmem | hmem
  · rcases List.mem_append.mp hmem with hmem | hmem
    · obtain ⟨d,_,hd⟩ := exists_of_mem_right hsymbols hmem
      exact .inl ⟨d,x,hd,rfl⟩
    · obtain ⟨y,hy,rfl⟩ := List.mem_map.mp hmem
      exact .inr (.inl ⟨y,hy,rfl⟩)
  · obtain ⟨name,_,rfl⟩ := List.mem_map.mp hmem
    exact .inr (.inr ⟨name,rfl⟩)

theorem grounded_start (b : PreparedMain u p)
    (hp : p = (Progress.initial u caseSensitive).declare (symbols ++
      u.routines.map (routineSymbol (Progress.initial u caseSensitive).scopes)))
    (hsymbols : List.Forall₂ (SymbolOf (Progress.initial u caseSensitive).scopes.current)
      (u.globals ++ mainDeclarations u.main) symbols) :
    Grounded u caseSensitive b.start.scopes.ground := by
  have htable := symbols_ground b hp
  refine ⟨?_,?_,?_,?_,?_,?_⟩
  · change (p.scopes.add _).caseSensitive = _
    rw [hp]
    rfl
  · change (p.scopes.add _).scoping = _
    rw [hp]
    rfl
  · have hdistinct := b.distinct
    rw [SymbolTable.Distinct,htable,List.map_map]
    rw [SymbolTable.Distinct,hp] at hdistinct
    exact hp ▸ hdistinct
  · intro x hx hstorage
    rcases mem_symbols_ground b hp hsymbols hx with ⟨d,_,⟨new,hnew,rfl⟩,rfl⟩ | ⟨_,_,rfl⟩ | ⟨_,rfl⟩
    · obtain ⟨_,_,hcls,hkind⟩ := declared_eq_ok hnew
      rw [← hcls] at hkind
      rcases hkind with hkind | hkind
      · simp [Symbol.hasStorage,Symbol.forget,SymbolTable.keyed,hkind] at hstorage
      · exact hkind
    · cases hstorage
    · cases hstorage
  · intro d hd
    obtain ⟨x,hx,new,hnew,rfl⟩ := exists_of_mem_left hsymbols hd
    obtain ⟨hname,htype,hcls,_⟩ := declared_eq_ok hnew
    rw [htable]
    refine ⟨_,List.mem_map_of_mem (List.mem_append_left _ (List.mem_append_left _ hx)),?_,htype,hcls⟩
    rw [← hname]
    rfl
  · intro y hy
    rw [htable]
    exact ⟨_,List.mem_map_of_mem (List.mem_append_left _
      (List.mem_append_right _ (List.mem_map_of_mem hy))),rfl,rfl⟩

/-- The main program is taken up in sound scopes if the routines have been put into code. -/
theorem sound_start {final : List RoutineCode} (b : PreparedMain u p)
    (hp : p = (Progress.initial u caseSensitive).declare (symbols ++
      u.routines.map (routineSymbol (Progress.initial u caseSensitive).scopes)))
    (hsymbols : List.Forall₂ (SymbolOf (Progress.initial u caseSensitive).scopes.current)
      (u.globals ++ mainDeclarations u.main) symbols)
    (hlinked : ∀ x ∈ u.routines, Linked final (normalize caseSensitive x.name)
      (x.params.map Param.type) (.scalar x.returns)) :
    Sound final b.start.scopes.ground b.start.scopes := by
  have hinner : b.start.scopes.scopes = [b.start.scopes.outermost] := by
    change (p.scopes.add _).scopes = [(p.scopes.add _).outermost]
    rw [hp]
    rfl
  refine ⟨?_,?_,rfl⟩
  · have hnone : b.start.scopes.inner = [] := List.append_cancel_right hinner
    intro scope hscope
    rw [hnone] at hscope
    cases hscope
  · intro scope hscope x hx
    rw [hinner] at hscope
    rw [List.mem_singleton.mp hscope] at hx
    rcases mem_symbols_ground b hp hsymbols hx with ⟨d,_,⟨new,hnew,rfl⟩,rfl⟩ | ⟨y,hy,rfl⟩ | ⟨_,rfl⟩
    · exact stands_declared final hnew _ _
    · exact ⟨fun _ => hlinked y hy,nofun⟩
    · exact Symbol.stands_of_cls nofun nofun

theorem Progress.orderly_of_nil (hroutines : p.routines = []) (hentries : p.entryPoints = []) :
    p.Orderly := by
  constructor
  · rw [Progress.Listed,hroutines]
    exact hentries
  all_goals rw [hroutines]
  · exact List.nodup_nil
  · exact List.nodup_nil
  · simp

theorem PreparedMain.orderly_after {code : Code} {s : State} (b : PreparedMain u p)
    (hroutines : p.routines = []) (hentries : p.entryPoints = [])
    (hrule : p.scopes.current.caseSensitive = p.scopes.caseSensitive) (huniform : b.start.scopes.Uniform)
    (hbody : (bodyCode b.routine (mainBody b.routine u)).Gives b.start code s) :
    ((b.progress.after s).add (b.finished s.frame code)).Orderly := by
  have hchanges := changes_of_gives hbody (stays_bodyCode (stays_mainBody _ u _))
  have hfrom : LabelsFrom b.routine b.start.scopes.caseSensitive (Stmt.flattenAll u.main)
      (bodyCode b.routine (mainBody b.routine u)) := labelsFrom_bodyCode (labelsFrom_mainBody u)
  have hnumbers := b.numbers_start hrule
  have hle : p.nextLabel ≤ b.start.nextLabel := Nat.le_add_right _ _
  have hname : p.entryPoints.lookup (b.finished s.frame code).name = none := by
    rw [hentries]
    rfl
  exact (Progress.orderly_of_nil hroutines hentries).add rfl rfl hname
    (hfrom.nodup hbody huniform hnumbers (Nat.le_refl _)) (Nat.le_trans hle hchanges.nextLabel_le)
    (hfrom.mem_range hbody huniform hnumbers (Nat.le_refl _) hchanges.nextLabel_le)

end unit

/-- The routines of a module: the main program first, then those that were put into code. -/
theorem assembled_of_run {u : SourceUnit} {caseSensitive : Bool} {m : Module}
    (h : (run u caseSensitive).2 = .ok m) :
    ∃ ground main rest, Assembled u caseSensitive m ground main rest := by
  obtain ⟨v,p',hunit,he,rfl⟩ := run_eq_ok h
  obtain ⟨symbols,p,b,code,s,w,hp,hsymbols,hbody,hs,htop⟩ := sourceUnit_ok hunit he
  have hchanges := changes_of_gives hbody (stays_bodyCode (stays_mainBody _ u _))
  have hcase : p.scopes.caseSensitive = caseSensitive := by
    rw [hp]
    exact ScopeStack.caseSensitive_add _ _
  have hcase' : s.scopes.caseSensitive = caseSensitive :=
    (hchanges.caseSensitive.trans (ScopeStack.caseSensitive_add _ _)).trans hcase
  have hrule : p.scopes.current.caseSensitive = p.scopes.caseSensitive := by
    rw [hp]
    simp [Progress.declare]
    rfl
  have hdepth : b.start.scopes.depth = 0 := by
    change (p.scopes.add _).depth = 0
    rw [hp]
    rfl
  have hroutines : p.routines = [] := by
    rw [hp]
    rfl
  have hentries : p.entryPoints = [] := by
    rw [hp]
    rfl
  let q := (b.progress.after s).add (b.finished s.frame code)
  have hq : q.routines = [b.finished s.frame code] := by
    change p.routines ++ [b.finished s.frame code] = _
    rw [hroutines]
    rfl
  have hstart : Sound (q.since p') b.start.scopes.ground b.start.scopes :=
    sound_start b hp hsymbols fun x hx => by
      have hlinked := linked_topLevel u.routines htop he x hx
      rwa [ScopeStack.normalize_eq,show ((b.progress.after s).add _).scopes.caseSensitive = _ from
        hcase'] at hlinked
  have horder := b.orderly_after hroutines hentries hrule hstart.uniform hbody
  have herrors : b.start.errors = [] := List.prefix_nil.mp (hs ▸ hchanges.errors)
  have hmain := b.start_eq hp hsymbols
  have hagrees : b.start.Agrees (outermost u caseSensitive) := by
    rw [hmain]
    rfl
  have hbehind := agrees_mainCode hbody (hs.trans herrors.symm) hagrees
  obtain ⟨hsound,horder',added,hadded,hfinished⟩ := adds_topLevel u.language u.routines htop he
    hbehind (List.Subset.refl _) (List.Subset.refl _) (hstart.changes hdepth hchanges) horder
  have hall : p'.routines = b.finished s.frame code :: added := by
    rw [hadded]
    exact congrArg (· ++ added) hq
  have hrest : q.since p' = added := by
    rw [Progress.since,hq,hall]
    rfl
  rw [hrest] at hstart hfinished
  refine ⟨b.start.scopes.ground,b.finished s.frame code,added,hall,
    .intro b (b.routine_eq hp) hmain hrule hcase hstart hdepth hbody ⟨herrors,hs⟩,hfinished,horder'.names,
    horder'.labels,grounded_start b hp hsymbols,?_,horder'.listed,rfl,rfl⟩
  rw [← hsound.outer]
  exact (globals_forget p'.scopes.global).symm

end Lowering
end StackCompiler
