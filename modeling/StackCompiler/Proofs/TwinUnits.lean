import StackCompiler.Proofs.TwinBodies

/-! Two units that are put into code side by side.
What holds of two bodies is carried over to the declarations before them, to routines with the routines
inside them, and to whole units. Routines may have been finished before; only whether the names of the
new ones are taken has to be the same in both. -/
namespace StackCompiler

mutual

/-- The entry names of a routine and of the routines inside it, in the order of the code. -/
def Routine.entries (rule : Bool) (entry : String) : Routine → List String
  | ⟨_,_,_,_,_,nested,_⟩ => entry :: Routine.entriesIn rule entry nested

def Routine.entriesIn (rule : Bool) (parent : String) : List Routine → List String
  | [] => []
  | x :: rest =>
    x.entries rule (Lowering.nestedEntry parent (normalize rule x.name)) ++
      Routine.entriesIn rule parent rest

end

namespace Lowering

open Lower Assemble

section closing

variable {c : Pairing} {exact : Prop} {r : Routine}

theorem endsWithReturn_relabel (f : Label → Label) (code : Code) :
    endsWithReturn (Code.relabel f code) = endsWithReturn code := by
  unfold endsWithReturn
  rw [Code.relabel,List.getLast?_map]
  cases code.getLast? with
  | none => rfl
  | some i => cases i <;> rfl

theorem twins_epilogue :
    Twins c exact (SameCode c exact) (epilogue r) (epilogue (r.relabel c.number)) := by
  unfold epilogue
  apply twins_ite
  · intro _
    exact twins_pure fun _ => rfl
  · intro _
    apply twins_bind twins_resultSlot
    rintro n m ⟨hsome,hnm⟩
    cases n <;> cases m <;> cases hsome
    · refine twins_pure fun _ => ?_
      change (Literal.zero r.returns).toList.map .const ++ [.ret true] = Code.relabel c.number _
      cases Literal.zero r.returns <;> rfl
    · next n m => exact twins_pure fun he => by cases hnm he; rfl

theorem run_epilogue (r : Routine) (s : State) :
    ∃ code frame, (epilogue r).run s = (.ok code,{ s with frame }) := by
  obtain ⟨code,s',h⟩ := exists_epilogue r s
  have hgives := h
  unfold epilogue at hgives
  rcases gives_ite.mp hgives with ⟨_,hgives⟩ | ⟨_,hgives⟩
  · obtain ⟨_,rfl⟩ := gives_pure.mp hgives
    exact ⟨code,_,h⟩
  · obtain ⟨slot,t,hslot,hgives⟩ := gives_bind.mp hgives
    obtain rfl : s' = t := by cases slot <;> exact (gives_pure.mp hgives).2
    rcases gives_resultSlot.mp hslot with ⟨_,_,rfl⟩ | ⟨_,_,_,rfl⟩ <;> exact ⟨code,_,h⟩

/-- The closing return. Where the frames differ, one body may end with a return and the other not. -/
theorem twins_bodyCode {step step' : Lower Code} (h : Twins c exact (SameCode c exact) step step') :
    Twins c exact (SameCode c exact) (bodyCode r step) (bodyCode (r.relabel c.number) step') := by
  apply twins_bind h
  intro code code' hcode
  by_cases he : exact
  · rw [hcode he,endsWithReturn_relabel]
    apply twins_ite
    · intro _
      exact twins_pure fun _ => rfl
    · intro _
      apply twins_bind twins_epilogue
      intro more more' hmore
      exact twins_pure fun he => by rw [hmore he,Code.relabel_append]
  · have hclose : ∀ (r : Routine) (code : Code) (s : State), ∃ result frame,
        (if endsWithReturn code = true then pure code else do
          let more ← epilogue r
          pure (code ++ more) : Lower Code).run s = (.ok result,{ s with frame }) := by
      intro r code s
      split
      · exact ⟨code,s.frame,rfl⟩
      · obtain ⟨more,frame,hmore⟩ := run_epilogue r s
        refine ⟨code ++ more,frame,?_⟩
        rw [run_bind,hmore]
        rfl
    intro s t hst
    obtain ⟨x,f,hx⟩ := hclose r code s
    obtain ⟨y,g,hy⟩ := hclose (r.relabel c.number) code' t
    rw [hx,hy]
    exact ⟨.ok fun h => absurd h he,hst.scopes,fun h => absurd h he,hst.nextLabel,hst.errors⟩

theorem twins_allocateAll (r : Routine) (ds : List Declaration) :
    Twins c exact (SameCode c exact) (allocateAll r ds)
      (allocateAll (r.relabel c.number) (ds.map (Declaration.respell c.spell))) := by
  induction ds with
  | nil => exact twins_pure fun _ => rfl
  | cons d rest ih =>
    apply twins_bind (twins_recover (twins_allocateGlobal d))
    intro code code' hcode
    apply twins_bind ih
    intro more more' hmore
    exact twins_pure fun he => by rw [hcode he,hmore he,Code.relabel_append]

theorem twins_mainBody (r : Routine) (u : SourceUnit) :
    Twins c exact (SameCode c exact) (mainBody r u)
      (mainBody (r.relabel c.number) (u.respell c.spell)) := by
  apply twins_bind (twins_allocateAll r u.globals)
  intro arrays arrays' harrays
  apply twins_bind (twins_stmts r u.main)
  intro code code' hcode
  exact twins_pure fun he => by rw [harrays he,hcode he,Code.relabel_append]

end closing

/-- The routine with that entry name is there. -/
def Taken (routines : List RoutineCode) (entry : String) : Prop := ∃ x ∈ routines, x.name = entry

/-- Two units under way. After the routines `base` and `base'` that were finished before, both have
finished routines with the same names; without diagnostics these differ in the numbers of labels only. -/
structure Progress.Twin (c : Pairing) (base base' : List RoutineCode) (p q : Progress) : Prop where
  scopes : p.scopes.Alike c.rule q.scopes
  nextLabel : q.nextLabel = c.number p.nextLabel
  errors : q.errors.map Diagnostic.gist = p.errors.map Diagnostic.gist
  listed : p.Listed ∧ q.Listed
  routines : ∃ added added', p.routines = base ++ added ∧ q.routines = base' ++ added' ∧
    added'.map RoutineCode.name = added.map RoutineCode.name ∧
    (p.errors = [] → added' = added.map (RoutineCode.relabel c.number))

section progress

variable {c : Pairing} {base base' : List RoutineCode} {p p' q q' : Progress}

theorem Progress.Twin.errors_nil (h : p.Twin c base base' q) : q.errors = [] ↔ p.errors = [] := by
  rw [← List.map_eq_nil_iff,h.errors,List.map_eq_nil_iff]

theorem Progress.Twin.fail (h : p.Twin c base base' q) {d e : Diagnostic} (hgist : e.gist = d.gist) :
    (p.fail d).Twin c base base' (q.fail e) := by
  refine ⟨h.scopes,h.nextLabel,?_,h.listed,?_⟩
  · change (q.errors ++ [e]).map _ = (p.errors ++ [d]).map _
    rw [List.map_append,List.map_append,h.errors]
    simp only [List.map_cons,List.map_nil,hgist]
  · obtain ⟨added,added',hp,hq,hnames,_⟩ := h.routines
    exact ⟨added,added',hp,hq,hnames,fun he => absurd he (by simp [Progress.fail])⟩

theorem Progress.Twin.add (h : p.Twin c base base' q) {x y : RoutineCode} (hname : y.name = x.name)
    (hsame : p.errors = [] → y = x.relabel c.number) : (p.add x).Twin c base base' (q.add y) := by
  obtain ⟨added,added',hp,hq,hnames,hadded⟩ := h.routines
  refine ⟨h.scopes,h.nextLabel,h.errors,⟨h.listed.1.add x,h.listed.2.add y⟩,added ++ [x],added' ++ [y],
    ?_,?_,?_,fun he => ?_⟩
  · change p.routines ++ [x] = _
    rw [hp,List.append_assoc]
  · change q.routines ++ [y] = _
    rw [hq,List.append_assoc]
  · rw [List.map_append,List.map_append,hnames,List.map_singleton,List.map_singleton,hname]
  · rw [List.map_append,hadded he,hsame he]
    rfl

theorem Progress.Twin.lookup_ne_none (h : p.Twin c base base' q) {entry : String}
    (hentry : Taken base entry ↔ Taken base' entry) :
    p.entryPoints.lookup entry ≠ none ↔ q.entryPoints.lookup entry ≠ none := by
  rw [h.listed.1.lookup_ne_none,h.listed.2.lookup_ne_none]
  change Taken p.routines entry ↔ Taken q.routines entry
  obtain ⟨added,added',hp,hq,hnames,_⟩ := h.routines
  have hadded : Taken added entry ↔ Taken added' entry := by
    unfold Taken
    rw [← List.mem_map,← List.mem_map,hnames]
  have happend : ∀ xs ys : List RoutineCode, Taken (xs ++ ys) entry ↔ Taken xs entry ∨ Taken ys entry := by
    intro xs ys
    simp only [Taken,List.mem_append,or_and_right,exists_or]
  rw [hp,hq,happend,happend,hentry,hadded]

theorem twin_attempt {α β : Type} {R : α → β → Prop}
    {step : ScopeStack → Except Diagnostic α × ScopeStack}
    {step' : ScopeStack → Except Diagnostic β × ScopeStack} {a : Option α} {b : Option β}
    (h : p.Twin c base base' q) (ha : (attempt step).Gives p a p') (hb : (attempt step').Gives q b q')
    (hstep : AgreeIn R (ScopeStack.Alike c.rule) (step p.scopes) (step' q.scopes)) :
    p'.Twin c base base' q' ∧
      (a = none ∧ b = none ∧ p'.errors ≠ [] ∨ ∃ x y, a = some x ∧ b = some y ∧ R x y) := by
  obtain ⟨hresult,hscopes⟩ := hstep
  rcases gives_attempt.mp ha with ⟨x,scopes,hx,rfl,rfl⟩ | ⟨d,scopes,hx,rfl,rfl⟩ <;>
    rcases gives_attempt.mp hb with ⟨y,scopes',hy,rfl,rfl⟩ | ⟨e,scopes',hy,rfl,rfl⟩ <;>
    rw [hx,hy] at hresult hscopes <;>
    have hmoved : Progress.Twin c base base' { p with scopes } { q with scopes := scopes' } :=
      ⟨hscopes,h.nextLabel,h.errors,h.listed,h.routines⟩ <;>
    cases hresult
  · next hR => exact ⟨hmoved,.inr ⟨x,y,rfl,rfl,hR⟩⟩
  · next hgist => exact ⟨hmoved.fail hgist,.inl ⟨rfl,rfl,by simp [Progress.fail]⟩⟩

theorem twin_declareSymbol {x y : Symbol} {a b : Option Symbol} (h : p.Twin c base base' q)
    (ha : (attempt fun scopes => scopes.declare x).Gives p a p')
    (hb : (attempt fun scopes => scopes.declare y).Gives q b q') (hxy : x.Respells c.rule y) :
    p'.Twin c base base' q' ∧
      (a = none ∧ b = none ∧ p'.errors ≠ [] ∨ ∃ x y, a = some x ∧ b = some y ∧ y.bare = x.bare) :=
  twin_attempt h ha hb (h.scopes.declare hxy)

theorem respells_routine (x : StackCompiler.Routine) {entry entry' : String} (h : entry' = entry) :
    Symbol.Respells c.rule { x.symbol with entry := some entry }
      { (x.respell c.spell).symbol with entry := some entry' } := by
  rw [h,StackCompiler.Routine.symbol_respell]
  exact ⟨c.keeps x.name,rfl⟩

theorem twin_declareParams (params : List Param) {frame frame' f f' : Frame}
    (h : p.Twin c base base' q) (hp : (declareParams frame params).Gives p f p')
    (hq : (declareParams frame' (params.map (Param.respell c.spell))).Gives q f' q')
    (hframe : p.errors = [] → frame' = frame) :
    p'.Twin c base base' q' ∧ (p'.errors = [] → f' = f) := by
  induction params generalizing frame frame' p q with
  | nil =>
    rw [declareParams] at hp
    rw [List.map_nil,declareParams] at hq
    obtain ⟨rfl,rfl⟩ := gives_pure.mp hp
    obtain ⟨rfl,rfl⟩ := gives_pure.mp hq
    exact ⟨h,hframe⟩
  | cons x rest ih =>
    rw [declareParams,gives_bind] at hp
    rw [List.map_cons,declareParams,gives_bind] at hq
    obtain ⟨a,p₁,ha,hp⟩ := hp
    obtain ⟨b,q₁,hb,hq⟩ := hq
    have htwin := twin_attempt (R := fun x y => y.bare = x.bare) h ha hb
    have htype : (x.respell c.spell).type = x.type := rfl
    obtain ⟨h₁,hcases⟩ := htwin (by
      rw [htype]
      rcases validate_respell x.type x.name (x.respell c.spell).name with ⟨_,_,hv,hv',hkind⟩ | ⟨hv,hv'⟩
      · rw [hv,hv']
        exact ⟨.error (Prod.ext rfl hkind),h.scopes⟩
      · rw [hv,hv']
        exact h.scopes.declare ⟨c.keeps x.name,rfl⟩)
    have hgrows := grows_attempt ha
    refine ih h₁ hp hq fun he => ?_
    rcases hcases with ⟨_,_,hne⟩ | ⟨symbol,symbol',rfl,rfl,hbare⟩
    · exact absurd he hne
    · obtain ⟨name,line,rfl⟩ := Symbol.eq_of_bare hbare
      rw [hframe (hgrows.errors_nil he)]
      rfl

theorem twin_declareNested (parent : String) (nested : List StackCompiler.Routine) {u v : Unit}
    (h : p.Twin c base base' q) (hp : (declareNested parent nested).Gives p u p')
    (hq : (declareNested parent (Routine.respellAll c.spell nested)).Gives q v q') :
    p'.Twin c base base' q' := by
  induction nested generalizing p q with
  | nil =>
    rw [declareNested] at hp
    rw [StackCompiler.Routine.respellAll,declareNested] at hq
    rw [(gives_pure.mp hp).2,(gives_pure.mp hq).2]
    exact h
  | cons x rest ih =>
    rw [StackCompiler.Routine.respellAll] at hq
    simp only [declareNested,gives_bind,gives_keyOf] at hp hq
    obtain ⟨_,p,⟨rfl,rfl⟩,_,p₁,ha,hp⟩ := hp
    obtain ⟨_,q,⟨rfl,rfl⟩,_,q₁,hb,hq⟩ := hq
    have hentry : nestedEntry parent (q.scopes.normalize (x.respell c.spell).name) =
        nestedEntry parent (p.scopes.normalize x.name) := by
      rw [StackCompiler.Routine.name_respell,h.scopes.normalize (c.keeps x.name)]
    exact ih (twin_declareSymbol h ha hb (respells_routine x hentry)).1 hp hq

theorem twin_declareAll (ds : List Declaration) {u v : Unit} (h : p.Twin c base base' q)
    (hp : (declareAll ds).Gives p u p')
    (hq : (declareAll (ds.map (Declaration.respell c.spell))).Gives q v q') :
    p'.Twin c base base' q' := by
  induction ds generalizing p q with
  | nil =>
    rw [declareAll] at hp
    rw [List.map_nil,declareAll] at hq
    rw [(gives_pure.mp hp).2,(gives_pure.mp hq).2]
    exact h
  | cons d rest ih =>
    rw [declareAll,gives_bind] at hp
    rw [List.map_cons,declareAll,gives_bind] at hq
    obtain ⟨_,p₁,ha,hp⟩ := hp
    obtain ⟨_,q₁,hb,hq⟩ := hq
    exact ih (twin_attempt (R := fun x y => y.bare = x.bare) h ha hb (agree_declare h.scopes d)).1 hp hq

theorem twin_declareRoutines (xs : List StackCompiler.Routine) {u v : Unit}
    (h : p.Twin c base base' q) (hp : (declareRoutines xs).Gives p u p')
    (hq : (declareRoutines (StackCompiler.Routine.respellAll c.spell xs)).Gives q v q') :
    p'.Twin c base base' q' := by
  induction xs generalizing p q with
  | nil =>
    rw [declareRoutines] at hp
    rw [StackCompiler.Routine.respellAll,declareRoutines] at hq
    rw [(gives_pure.mp hp).2,(gives_pure.mp hq).2]
    exact h
  | cons x rest ih =>
    rw [StackCompiler.Routine.respellAll] at hq
    simp only [declareRoutines,gives_bind,gives_keyOf] at hp hq
    obtain ⟨_,p,⟨rfl,rfl⟩,_,p₁,ha,hp⟩ := hp
    obtain ⟨_,q,⟨rfl,rfl⟩,_,q₁,hb,hq⟩ := hq
    have hentry : q.scopes.normalize (x.respell c.spell).name = p.scopes.normalize x.name := by
      rw [StackCompiler.Routine.name_respell,h.scopes.normalize (c.keeps x.name)]
    have hagree := h.scopes.declareGlobal (respells_routine x hentry)
    exact ih (twin_attempt (R := fun x y => y.bare = x.bare) h ha hb hagree).1 hp hq

theorem Progress.Twin.number (h : p.Twin c base base' q) : (p.number 1).Twin c base base' (q.number 1) := by
  refine ⟨h.scopes,?_,h.errors,h.listed,h.routines⟩
  change q.nextLabel + 1 = c.number (p.nextLabel + 1)
  rw [h.nextLabel,Pairing.number,Pairing.number,Nat.add_right_comm]

theorem twin_declareLabels (xs : List Stmt) {labels labels' : List (String × Label)}
    (h : p.Twin c base base' q) (hp : (declareLabels xs).Gives p labels p')
    (hq : (declareLabels (xs.map (Stmt.respell c.spell))).Gives q labels' q') :
    p'.Twin c base base' q' ∧ labels' = labels.map (Prod.map id c.number) := by
  induction xs generalizing p q labels labels' with
  | nil =>
    rw [declareLabels] at hp
    rw [List.map_nil,declareLabels] at hq
    obtain ⟨rfl,rfl⟩ := gives_pure.mp hp
    obtain ⟨rfl,rfl⟩ := gives_pure.mp hq
    exact ⟨h,rfl⟩
  | cons x rest ih =>
    rw [List.map_cons] at hq
    by_cases hx : ∃ line name, x = .label line name
    · obtain ⟨line,name,rfl⟩ := hx
      rw [Stmt.respell] at hq
      obtain ⟨a,p₁,ha,hrest⟩ := declareLabels_label hp
      obtain ⟨b,q₁,hb,hrest'⟩ := declareLabels_label hq
      obtain ⟨h₁,hcases⟩ := twin_declareSymbol h ha hb ⟨c.keeps name,rfl⟩
      rcases hcases with ⟨rfl,rfl,_⟩ | ⟨symbol,symbol',rfl,rfl,hbare⟩
      · rcases hrest with ⟨_,hmore⟩ | ⟨_,_,hsome,_⟩
        · rcases hrest' with ⟨_,hmore'⟩ | ⟨_,_,hsome,_⟩
          · exact ih h₁ hmore hmore'
          · cases hsome
        · cases hsome
      · rcases hrest with ⟨hnone,_⟩ | ⟨_,more,hsome,hmore,rfl⟩
        · cases hnone
        · rcases hrest' with ⟨hnone,_⟩ | ⟨_,more',hsome',hmore',rfl⟩
          · cases hnone
          · cases hsome
            cases hsome'
            obtain ⟨name,line,rfl⟩ := Symbol.eq_of_bare hbare
            obtain ⟨h₂,rfl⟩ := ih h₁.number hmore hmore'
            refine ⟨h₂,?_⟩
            rw [List.map_cons,h₁.nextLabel]
            rfl
    · rw [declareLabels_other fun line name he => hx ⟨line,name,he⟩] at hp
      have hother : ∀ line name, x.respell c.spell ≠ .label line name := by
        intro line name he
        cases x <;> rw [Stmt.respell] at he <;> cases he
        exact hx ⟨_,_,rfl⟩
      rw [declareLabels_other hother] at hq
      exact ih h hp hq

theorem twin_finish {r : Routine} {line : Line} {params mark mark' : Nat} {frame frame' : Frame}
    {step step' : Lower Code} {u v : Unit} (h : p.Twin c base base' q)
    (hp : (finish r line params mark frame step).Gives p u p')
    (hq : (finish (r.relabel c.number) line params mark' frame' step').Gives q v q')
    (hstep : Twins c (frame' = frame) (SameCode c (frame' = frame)) step step')
    (hstays : ∀ s, step.Stays r s) (hframe : p.errors = [] → frame' = frame)
    (hentry : Taken base r.entry ↔ Taken base' r.entry) : p'.Twin c base base' q' := by
  obtain ⟨code,s,hs,hp'⟩ := finish_cases hp
  obtain ⟨code',t,ht,hq'⟩ := finish_cases hq
  have hstate : (p.state frame).Twin c (frame' = frame) (q.state frame') :=
    ⟨h.scopes,id,h.nextLabel,h.errors⟩
  obtain ⟨hagree,hst⟩ := twins_bodyCode (r := r) hstep _ _ hstate
  rw [show (bodyCode r step).run (p.state frame) = (.ok code,s) from hs,
    show (bodyCode (r.relabel c.number) step').run (q.state frame') = (.ok code',t) from ht] at hagree hst
  have hcode : SameCode c (frame' = frame) code code' := by
    cases hagree with
    | ok h => exact h
  have herrors : s.errors = [] → p.errors = [] := by
    intro hnil
    have hprefix := (changes_of_gives hs (stays_bodyCode (hstays _))).errors
    rw [hnil] at hprefix
    exact List.prefix_nil.mp hprefix
  obtain ⟨added,added',hadded,hadded',hnames,hsame⟩ := h.routines
  have hafter : (p.after s).Twin c base base' (q.after t) :=
    ⟨hst.scopes,hst.nextLabel,hst.errors,h.listed,added,added',hadded,hadded',hnames,fun he => hsame (herrors he)⟩
  have htaken := h.lookup_ne_none hentry
  rcases hp' with ⟨hold,rfl⟩ | ⟨hnew,rfl⟩
  · rcases hq' with ⟨_,rfl⟩ | ⟨hnew,_⟩
    · exact hafter.fail rfl
    · exact absurd hnew (htaken.mp hold)
  · rcases hq' with ⟨hold,_⟩ | ⟨_,rfl⟩
    · exact absurd hnew (htaken.mpr hold)
    · apply hafter.add
      · rfl
      · intro he
        have hexact := hframe (herrors he)
        rw [hcode hexact,show t.frame = s.frame from hst.frame hexact]
        rfl

end progress

section routines

variable {c : Pairing} {base base' : List RoutineCode}

/-- A scope is opened for both routines or for neither; a failure is told at the line of the routine. -/
theorem agree_push {s t : ScopeStack} (h : s.Alike c.rule t) (name name' : String)
    (discipline : Discipline) (line : Line) :
    AgreeIn (fun a b => b.depth = a.depth) (ScopeStack.Alike c.rule)
      ((s.push name discipline).map (Except.mapError fun d => ⟨line,d.cause⟩) id)
      ((t.push name' discipline).map (Except.mapError fun d => ⟨line,d.cause⟩) id) := by
  obtain ⟨hresult,hscopes⟩ := h.push name name' discipline
  refine ⟨?_,hscopes⟩
  change Agree _ ((s.push name discipline).1.mapError _) ((t.push name' discipline).1.mapError _)
  generalize (s.push name discipline).1 = x, (t.push name' discipline).1 = y at hresult
  cases hresult with
  | ok h => exact .ok h
  | @error d e h =>
    have hkind : e.cause.ctorIdx = d.cause.ctorIdx := congrArg Prod.snd h
    exact .error (Prod.ext rfl hkind)

mutual

theorem twin_routine (language : Language) : ∀ (x : StackCompiler.Routine) {entry : String} {u v : Unit}
    {p p' q q' : Progress}, p.Twin c base base' q → (routine language entry x).Gives p u p' →
    (routine language entry (x.respell c.spell)).Gives q v q' →
    (∀ name ∈ x.entries c.rule entry, Taken base name ↔ Taken base' name) → p'.Twin c base base' q'
  | ⟨name,discipline,params,returns,body,nested,line⟩, entry, u, v, p, p', q, q', h, hp, hq, hentries => by
    rw [Routine.entries] at hentries
    rw [routine,gives_bind] at hp
    rw [StackCompiler.Routine.respell,routine,gives_bind] at hq
    obtain ⟨opened,p₁,hopened,hp⟩ := hp
    obtain ⟨opened',q₁,hopened',hq⟩ := hq
    obtain ⟨h₁,hcases⟩ := twin_attempt (R := fun a b : ScopeHandle => b.depth = a.depth) h hopened hopened'
      (agree_push h.scopes _ _ _ _)
    rcases hcases with ⟨rfl,rfl,_⟩ | ⟨handle,handle',rfl,rfl,hdepth⟩
    · rw [(gives_pure.mp hp).2,(gives_pure.mp hq).2]
      exact h₁
    · simp only [gives_bind,gives_get,gives_keyOf] at hp hq
      obtain ⟨_,_,⟨rfl,rfl⟩,_,p₁,⟨rfl,rfl⟩,frame,p₂,hparams,_,p₃,hnested,labels,p₄,hlabels,_,p₅,hfinish,
        _,_,hroutines,_,p₆,⟨rfl,rfl⟩,hp⟩ := hp
      obtain ⟨_,_,⟨rfl,rfl⟩,_,q₁,⟨rfl,rfl⟩,frame',q₂,hparams',_,q₃,hnested',labels',q₄,hlabels',_,q₅,
        hfinish',_,_,hroutines',_,q₆,⟨rfl,rfl⟩,hq⟩ := hq
      obtain ⟨h₂,hframe⟩ := twin_declareParams params h₁ hparams hparams' fun _ => rfl
      have h₃ := twin_declareNested entry nested h₂ hnested hnested'
      rw [Stmt.flattenAll_respell] at hlabels'
      obtain ⟨h₄,rfl⟩ := twin_declareLabels _ h₃ hlabels hlabels'
      rw [h₁.scopes.normalize (c.keeps name),hdepth,List.length_map] at hfinish'
      have h₅ := twin_finish h₄ hfinish hfinish' (twins_stmts _ body) (stays_stmts _ body)
        (fun he => hframe (((grows_declareNested nested hnested).trans
          (grows_declareLabels _ hlabels)).errors_nil he)) (hentries entry (by simp))
      have h₆ := twin_routines language nested h₅ hroutines hroutines' fun name hname =>
        hentries name (by simp [hname])
      split at hp
      · simp only [gives_bind,gives_throw,and_false,exists_false] at hp
      · next table scopes hpop =>
        split at hq
        · simp only [gives_bind,gives_throw,and_false,exists_false] at hq
        · next table' scopes' hpop' =>
          rw [gives_set.mp hp,gives_set.mp hq]
          exact ⟨h₆.scopes.pop hpop hpop',h₆.nextLabel,h₆.errors,h₆.listed,h₆.routines⟩

theorem twin_routines (language : Language) : ∀ (xs : List StackCompiler.Routine) {parent : String}
    {u v : Unit} {p p' q q' : Progress}, p.Twin c base base' q →
    (routines language parent xs).Gives p u p' →
    (routines language parent (StackCompiler.Routine.respellAll c.spell xs)).Gives q v q' →
    (∀ name ∈ Routine.entriesIn c.rule parent xs, Taken base name ↔ Taken base' name) →
    p'.Twin c base base' q'
  | [], _, _, _, _, _, _, _, h, hp, hq, _ => by
    rw [routines] at hp
    rw [StackCompiler.Routine.respellAll,routines] at hq
    rw [(gives_pure.mp hp).2,(gives_pure.mp hq).2]
    exact h
  | x :: rest, parent, _, _, _, _, _, _, h, hp, hq, hentries => by
    rw [routines] at hp
    rw [StackCompiler.Routine.respellAll,routines] at hq
    simp only [gives_bind,gives_keyOf] at hp hq
    obtain ⟨_,p,⟨rfl,rfl⟩,_,p₁,hx,hp⟩ := hp
    obtain ⟨_,q,⟨rfl,rfl⟩,_,q₁,hx',hq⟩ := hq
    rw [StackCompiler.Routine.name_respell,h.scopes.normalize (c.keeps x.name)] at hx'
    rw [Routine.entriesIn] at hentries
    rw [h.scopes.normalize_left] at hx hx'
    have h₁ := twin_routine language x h hx hx' fun name hname => hentries name (by simp [hname])
    exact twin_routines language rest h₁ hp hq fun name hname => hentries name (by simp [hname])

end

theorem twin_topLevel (language : Language) (xs : List StackCompiler.Routine) {u v : Unit}
    {p p' q q' : Progress} (h : p.Twin c [] [] q) (hp : (topLevel language xs).Gives p u p')
    (hq : (topLevel language (StackCompiler.Routine.respellAll c.spell xs)).Gives q v q') :
    p'.Twin c [] [] q' := by
  induction xs generalizing p q with
  | nil =>
    rw [topLevel] at hp
    rw [StackCompiler.Routine.respellAll,topLevel] at hq
    rw [(gives_pure.mp hp).2,(gives_pure.mp hq).2]
    exact h
  | cons x rest ih =>
    rw [StackCompiler.Routine.respellAll] at hq
    simp only [topLevel,gives_bind,gives_keyOf] at hp hq
    obtain ⟨_,p,⟨rfl,rfl⟩,_,p₁,hx,hp⟩ := hp
    obtain ⟨_,q,⟨rfl,rfl⟩,_,q₁,hx',hq⟩ := hq
    rw [StackCompiler.Routine.name_respell,h.scopes.normalize (c.keeps x.name)] at hx'
    exact ih (twin_routine language x h hx hx' fun _ _ => .rfl) hp hq

def mainOf (u : SourceUnit) (entry : String) (labels : List (String × Label)) : Routine :=
  { language := u.language, entry, depth := 0, returns := .void, labels }

/-- The main program of two units, after everything of the outermost scope was declared. -/
theorem twin_main {u : SourceUnit} {p p₁ p' q q₁ q' : Progress} {line : Line}
    {labels labels' : List (String × Label)} {mark mark' : Nat} {v w : Unit} (h : p.Twin c [] [] q)
    (hlabels : (declareLabels (Stmt.flattenAll u.main)).Gives p labels p₁)
    (hlabels' : (declareLabels (Stmt.flattenAll (u.respell c.spell).main)).Gives q labels' q₁)
    (hp : (finish (mainOf u (p.scopes.normalize u.name) labels) line 0 mark []
      (mainBody (mainOf u (p.scopes.normalize u.name) labels) u)).Gives p₁ v p')
    (hq : (finish (mainOf u (q.scopes.normalize (u.respell c.spell).name) labels') line 0 mark' []
      (mainBody (mainOf u (q.scopes.normalize (u.respell c.spell).name) labels')
        (u.respell c.spell))).Gives q₁ w q') :
    p'.Twin c [] [] q' := by
  change (declareLabels (Stmt.flattenAll (Stmt.respellAll c.spell u.main))).Gives _ _ _ at hlabels'
  rw [Stmt.flattenAll_respell] at hlabels'
  obtain ⟨h₁,rfl⟩ := twin_declareLabels _ h hlabels hlabels'
  have hentry : q.scopes.normalize (u.respell c.spell).name = p.scopes.normalize u.name :=
    h.scopes.normalize (c.keeps u.name)
  rw [hentry] at hq
  exact twin_finish h₁ hp hq (twins_mainBody _ u) (stays_mainBody _ u) (fun _ => rfl) .rfl

theorem twin_sourceUnit {u : SourceUnit} {v w : Unit} {p p' q q' : Progress} (h : p.Twin c [] [] q)
    (hp : (sourceUnit u).Gives p v p') (hq : (sourceUnit (u.respell c.spell)).Gives q w q') :
    p'.Twin c [] [] q' := by
  simp only [sourceUnit,gives_bind,gives_get,gives_keyOf] at hp hq
  obtain ⟨_,p₁,hall,_,_,hroutines,_,_,⟨rfl,rfl⟩,_,p₂,⟨rfl,rfl⟩,labels,p₃,hlabels,_,p₄,hfinish,htop⟩ := hp
  obtain ⟨_,q₁,hall',_,_,hroutines',_,_,⟨rfl,rfl⟩,_,q₂,⟨rfl,rfl⟩,labels',q₃,hlabels',_,q₄,hfinish',
    htop'⟩ := hq
  change (declareAll (u.globals.map (Declaration.respell c.spell) ++
    mainDeclarations (Stmt.respellAll c.spell u.main))).Gives q _ q₁ at hall'
  rw [mainDeclarations_respell,← List.map_append] at hall'
  have h₁ := twin_declareAll _ h hall hall'
  have h₂ := twin_declareRoutines _ h₁ hroutines hroutines'
  have h₄ := twin_main h₂ hlabels hlabels' hfinish hfinish'
  exact twin_topLevel u.language u.routines h₄ htop htop'

end routines

end Lowering
end StackCompiler
