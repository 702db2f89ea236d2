import StackCompiler.Compile
import StackCompiler.Proofs.BranchTargets

/-! Every unit is put into code to its end.
Whatever is wrong with a unit is recorded, and the next statement or routine is taken up: no
diagnostic is fatal. A routine closes the scope that it opened and leaves open those it found. -/
namespace StackCompiler

namespace ScopeStack

variable {s s' : ScopeStack}

theorem outline_declareGlobal {symbol declared : Symbol}
    (h : s.declareGlobal symbol = (.ok declared,s')) : s'.outline = s.outline := by
  unfold declareGlobal SymbolTable.declare at h
  cases hl : s.global.lookup symbol.name <;> rw [hl] at h <;> cases h
  rfl

theorem mild_declareGlobal {symbol : Symbol} : Mild (s.declareGlobal symbol).1 := by
  intro d h
  unfold declareGlobal SymbolTable.declare at h
  cases hl : s.global.lookup symbol.name <;> rw [hl] at h <;> cases h
  rfl

theorem mild_push {name : String} {discipline : Discipline} : Mild (s.push name discipline).1 := by
  intro d h
  unfold push at h
  split at h <;> cases h
  rfl

/-- A scope that is still the innermost one can be closed with its handle. -/
theorem exists_pop {handle : ScopeHandle} {rule : Bool} {outer : List (Nat × Bool) × Bool}
    (h : s.outline = ((handle.id,rule) :: outer.1,outer.2))
    (hd : handle.depth = outer.1.length + 1) :
    ∃ table s', s.pop handle = (.ok table,s') ∧ s'.outline = outer := by
  unfold outline at h
  unfold pop depth
  cases hi : s.inner with
  | nil =>
    rw [hi] at h
    cases h
  | cons scope rest =>
    rw [hi] at h
    simp only [List.map_cons,Prod.mk.injEq,List.cons.injEq] at h
    obtain ⟨⟨⟨hid,_⟩,hrest⟩,houter⟩ := h
    have hlength : rest.length = outer.1.length := by
      rw [← hrest,List.length_map]
    have hmatch : handle.depth = (scope :: rest).length ∧ handle.id = scope.id :=
      ⟨by rw [hd,List.length_cons,hlength],hid.symm⟩
    exact ⟨_,_,if_pos hmatch,Prod.ext hrest houter⟩

end ScopeStack

namespace Lowering

open Lower Code Assemble

section bodies

variable {r : Routine} {s s' : State}

theorem State.Changes.mild (h : s.Changes r s') :
    ∀ d ∈ s'.errors, d ∈ s.errors ∨ d.isFatal = false := by
  induction h with
  | refl => exact fun _ => .inl
  | tail _ hstep ih =>
    cases hstep with
    | record hd =>
      intro e he
      rcases List.mem_append.mp he with he | he
      · exact ih e he
      · rw [List.mem_singleton.mp he]
        exact .inr hd
    | label | touch | share | declare | temp | slot | result => exact ih

/-- A step that does not fail for good can be recovered from. -/
theorem exists_recover {x : Lower Code} (hx : x.Stays r s) :
    ∃ code s', (recover x).Gives s code s' := by
  rcases hrun : x.run s with ⟨d | code,t⟩
  · have hd : d.isFatal = false := hx.mild d (by rw [hrun])
    exact ⟨[],_,gives_recover.mpr (.inr ⟨d,t,hrun,hd,rfl,rfl⟩)⟩
  · exact ⟨code,t,gives_recover.mpr (.inl hrun)⟩

theorem exists_stmts (r : Routine) (xs : List Stmt) (s : State) :
    ∃ code s', (stmts r xs).Gives s code s' := by
  induction xs generalizing s with
  | nil =>
    unfold stmts
    exact ⟨[],s,gives_pure.mpr ⟨rfl,rfl⟩⟩
  | cons x rest ih =>
    obtain ⟨first,t,hx⟩ := exists_recover (stays_stmt r x s)
    obtain ⟨more,u,hrest⟩ := ih t
    exact ⟨_,u,gives_stmts_cons.mpr ⟨first,t,more,hx,hrest,rfl⟩⟩

theorem exists_allocateAll (r : Routine) (ds : List Declaration) (s : State) :
    ∃ code s', (allocateAll r ds).Gives s code s' := by
  induction ds generalizing s with
  | nil =>
    unfold allocateAll
    exact ⟨[],s,gives_pure.mpr ⟨rfl,rfl⟩⟩
  | cons d rest ih =>
    obtain ⟨first,t,hd⟩ := exists_recover (stays_allocateGlobal (r := r) (d := d) (s := s))
    obtain ⟨more,u,hrest⟩ := ih t
    exact ⟨_,u,gives_allocateAll_cons.mpr ⟨first,t,more,hd,hrest,rfl⟩⟩

theorem exists_mainBody (r : Routine) (u : SourceUnit) (s : State) :
    ∃ code s', (mainBody r u).Gives s code s' := by
  obtain ⟨arrays,t,ha⟩ := exists_allocateAll r u.globals s
  obtain ⟨code,s',hcode⟩ := exists_stmts r u.main t
  refine ⟨arrays ++ code,s',?_⟩
  simp only [mainBody,gives_bind,gives_pure]
  exact ⟨arrays,t,ha,code,s',hcode,rfl,rfl⟩

theorem exists_epilogue (r : Routine) (s : State) : ∃ code s', (epilogue r).Gives s code s' := by
  unfold epilogue
  by_cases hr : r.returns = .void
  · exact ⟨_,s,gives_ite.mpr (.inl ⟨hr,gives_pure.mpr ⟨rfl,rfl⟩⟩)⟩
  · cases hn : r.resultName with
    | none =>
      have hslot : (resultSlot r).Gives s none s := gives_resultSlot.mpr (.inl ⟨hn,rfl,rfl⟩)
      exact ⟨_,_,gives_ite.mpr (.inr ⟨hr,gives_bind.mpr ⟨_,_,hslot,gives_pure.mpr ⟨rfl,rfl⟩⟩⟩)⟩
    | some name =>
      have hslot := gives_resultSlot (s := s).mpr (.inr ⟨name,hn,rfl,rfl⟩)
      exact ⟨_,_,gives_ite.mpr (.inr ⟨hr,gives_bind.mpr ⟨_,_,hslot,gives_pure.mpr ⟨rfl,rfl⟩⟩⟩)⟩

theorem exists_bodyCode {step : Lower Code} (h : ∃ code s', step.Gives s code s') :
    ∃ code s', (bodyCode r step).Gives s code s' := by
  obtain ⟨body,t,hbody⟩ := h
  cases hends : endsWithReturn body with
  | true => exact ⟨body,t,gives_bodyCode.mpr ⟨body,t,hbody,.inl ⟨hends,rfl,rfl⟩⟩⟩
  | false =>
    obtain ⟨more,u,hmore⟩ := exists_epilogue r t
    exact ⟨_,u,gives_bodyCode.mpr ⟨body,t,hbody,.inr ⟨hends,more,hmore,rfl⟩⟩⟩

end bodies

/-- The same scopes are open, diagnostics are only added, and the new ones are not fatal. -/
structure Progress.Balanced (p p' : Progress) : Prop where
  outline : p'.scopes.outline = p.scopes.outline
  errors : p.errors <+: p'.errors
  mild : ∀ d ∈ p'.errors, d ∈ p.errors ∨ d.isFatal = false

namespace Progress.Balanced

variable {p q p' : Progress}

theorem refl (p : Progress) : p.Balanced p := ⟨rfl,List.prefix_refl _,fun _ => .inl⟩

theorem trans (h₁ : p.Balanced q) (h₂ : q.Balanced p') : p.Balanced p' := by
  refine ⟨h₂.outline.trans h₁.outline,h₁.errors.trans h₂.errors,fun d hd => ?_⟩
  rcases h₂.mild d hd with hd | hd
  · exact h₁.mild d hd
  · exact .inr hd

theorem fail (p : Progress) {d : Diagnostic} (hd : d.isFatal = false) : p.Balanced (p.fail d) := by
  refine ⟨rfl,List.prefix_append _ _,fun e he => ?_⟩
  rcases List.mem_append.mp he with he | he
  · exact .inl he
  · rw [List.mem_singleton.mp he]
    exact .inr hd

theorem after {r : Routine} {frame : Frame} {s : State} (h : (p.state frame).Changes r s) :
    p.Balanced (p.after s) :=
  ⟨h.outline,h.errors,h.mild⟩

end Progress.Balanced

def Assemble.Settles {α : Type} (x : Assemble α) (p : Progress) : Prop :=
  ∃ a p', x.Gives p a p' ∧ p.Balanced p'

section settles

variable {α β : Type} {p : Progress}

theorem settles_pure (a : α) : (pure a : Assemble α).Settles p :=
  ⟨a,p,gives_pure.mpr ⟨rfl,rfl⟩,.refl p⟩

theorem settles_bind {x : Assemble α} {f : α → Assemble β} (hx : x.Settles p)
    (hf : ∀ a q, x.Gives p a q → p.Balanced q → (f a).Settles q) : (x >>= f).Settles p := by
  obtain ⟨a,q,ha,hq⟩ := hx
  obtain ⟨b,p',hb,hp'⟩ := hf a q ha hq
  exact ⟨b,p',gives_bind.mpr ⟨a,q,ha,hb⟩,hq.trans hp'⟩

theorem settles_get_bind {f : Progress → Assemble α} (h : (f p).Settles p) :
    (get >>= f : Assemble α).Settles p := by
  obtain ⟨a,p',ha,hp'⟩ := h
  exact ⟨a,p',gives_bind.mpr ⟨p,p,gives_get.mpr ⟨rfl,rfl⟩,ha⟩,hp'⟩

theorem settles_ite {c : Prop} [Decidable c] {x y : Assemble α} (hx : c → x.Settles p)
    (hy : ¬ c → y.Settles p) : (if c then x else y).Settles p := by
  split
  · next h => exact hx h
  · next h => exact hy h

theorem settles_set {q : Progress} (h : p.Balanced q) : (set q : Assemble Unit).Settles p :=
  ⟨(),q,gives_set.mpr rfl,h⟩

theorem settles_keyOf (name : String) : (keyOf name).Settles p :=
  ⟨_,p,gives_keyOf.mpr ⟨rfl,rfl⟩,.refl p⟩

theorem settles_record {d : Diagnostic} (hd : d.isFatal = false) : (Assemble.record d).Settles p :=
  ⟨(),_,gives_record.mpr rfl,.fail p hd⟩

theorem settles_attempt {step : ScopeStack → Except Diagnostic α × ScopeStack}
    (hok : ∀ a scopes, step p.scopes = (.ok a,scopes) → scopes.outline = p.scopes.outline)
    (hc : Cautious (step p.scopes) p.scopes) (hmild : Mild (step p.scopes).1) :
    (attempt step).Settles p := by
  rcases hs : step p.scopes with ⟨d | a,scopes⟩
  · rw [hs] at hmild
    refine ⟨none,_,gives_attempt.mpr (.inr ⟨d,scopes,hs,rfl,rfl⟩),?_⟩
    rw [hc d scopes hs]
    exact .fail p (hmild d rfl)
  · refine ⟨some a,_,gives_attempt.mpr (.inl ⟨a,scopes,hs,rfl,rfl⟩),?_⟩
    exact ⟨hok a scopes hs,List.prefix_refl _,fun _ => .inl⟩

theorem settles_declareSymbol (symbol : Symbol) :
    (attempt fun scopes => scopes.declare symbol).Settles p :=
  settles_attempt (fun _ _ => ScopeStack.outline_declare) (p.scopes.cautious_declare symbol)
    ScopeStack.mild_declare

theorem settles_body {r : Routine} {frame : Frame} {step : Lower α}
    (hstays : step.Stays r (p.state frame)) (h : ∃ a s, step.Gives (p.state frame) a s) :
    (body frame step).Settles p := by
  obtain ⟨a,s,hs⟩ := h
  exact ⟨(a,s.frame),p.after s,gives_body.mpr ⟨s,hs,rfl,rfl⟩,.after (changes_of_gives hs hstays)⟩

theorem cautious_param (scopes : ScopeStack) (x : Param) :
    Cautious (match x.type.validate x.name with
      | .error cause => (.error ⟨x.line,cause⟩,scopes)
      | .ok () => scopes.declare x.symbol) scopes := by
  intro d scopes' h
  split at h
  · cases h
    rfl
  · exact scopes.cautious_declare _ d scopes' h

theorem settles_declareParams : ∀ (params : List Param) (frame : Frame) (p : Progress),
    (declareParams frame params).Settles p
  | [], frame, _ => settles_pure frame
  | x :: rest, frame, p => by
    unfold declareParams
    refine settles_bind (settles_attempt (fun symbol scopes h => ?_) (cautious_param p.scopes x)
      fun d h => ?_) fun _ q _ _ => settles_declareParams rest _ q
    · split at h
      · cases h
      · exact ScopeStack.outline_declare h
    · split at h
      · next hv =>
        cases h
        exact Ty.validate_mild hv
      · exact ScopeStack.mild_declare d h

theorem settles_declareNested (parent : String) : ∀ (nested : List StackCompiler.Routine)
    (p : Progress), (declareNested parent nested).Settles p
  | [], _ => settles_pure ()
  | x :: rest, p => by
    unfold declareNested
    refine settles_bind (settles_keyOf x.name) fun _ q _ _ => ?_
    exact settles_bind (settles_declareSymbol _) fun _ q _ _ => settles_declareNested parent rest q

theorem settles_declareLabels : ∀ (xs : List Stmt) (p : Progress), (declareLabels xs).Settles p := by
  intro xs
  induction xs with
  | nil => exact fun p => settles_pure []
  | cons x rest ih =>
    intro p
    by_cases hx : ∃ line name, x = .label line name
    · obtain ⟨line,name,rfl⟩ := hx
      unfold declareLabels
      refine settles_bind (settles_declareSymbol _) fun declared q _ _ => ?_
      cases declared with
      | none => exact ih q
      | some symbol =>
        refine settles_get_bind ?_
        have hnumber : q.Balanced (q.number 1) := ⟨rfl,List.prefix_refl _,fun _ => .inl⟩
        refine settles_bind (settles_set hnumber) fun _ q' _ _ => ?_
        exact settles_bind (ih q') fun _ _ _ _ => settles_pure _
    · rw [declareLabels_other fun line name he => hx ⟨line,name,he⟩]
      exact ih p

theorem settles_declareAll : ∀ (ds : List Declaration) (p : Progress), (declareAll ds).Settles p
  | [], _ => settles_pure ()
  | d :: rest, p => by
    unfold declareAll
    refine settles_bind (settles_attempt (fun symbol scopes h => ?_) (cautious_declare d p.scopes)
      mild_declare) fun _ q _ _ => settles_declareAll rest q
    obtain ⟨_,_,_,_,rfl⟩ := declare_cases h
    exact ScopeStack.outline_add _ _

theorem settles_declareRoutines : ∀ (xs : List StackCompiler.Routine) (p : Progress),
    (declareRoutines xs).Settles p
  | [], _ => settles_pure ()
  | x :: rest, p => by
    unfold declareRoutines
    refine settles_bind (settles_keyOf x.name) fun _ q _ _ => ?_
    refine settles_bind (settles_attempt (fun _ _ => ScopeStack.outline_declareGlobal)
      (q.scopes.cautious_declareGlobal _) ScopeStack.mild_declareGlobal) fun _ q _ _ =>
        settles_declareRoutines rest q

end settles

section labels

variable {p p' : Progress} {labels : List (String × Label)}

theorem has_attempt_declare {symbol : Symbol} {a : Option Symbol} {name key : String}
    (h : (attempt fun scopes => scopes.declare symbol).Gives p a p') (hp : p.scopes.Has name key) :
    p'.scopes.Has name key := by
  rcases attempt_cases (p.scopes.cautious_declare symbol) h with ⟨_,scopes,hd,_,rfl⟩ | ⟨_,_,_,rfl⟩
  · obtain ⟨_,_,rfl⟩ := ScopeStack.declare_eq_ok hd
    exact hp.add _
  · exact hp

theorem has_declareLabels {name key : String} : ∀ (xs : List Stmt) {labels : List (String × Label)}
    {p p' : Progress}, (declareLabels xs).Gives p labels p' → p.scopes.Has name key →
    p'.scopes.Has name key := by
  intro xs
  induction xs with
  | nil =>
    intro labels p p' h hp
    rw [declareLabels] at h
    rw [(gives_pure.mp h).2]
    exact hp
  | cons x rest ih =>
    intro labels p p' h hp
    by_cases hx : ∃ line name, x = .label line name
    · obtain ⟨line,name,rfl⟩ := hx
      obtain ⟨declared,q,hd,h⟩ := declareLabels_label h
      have hq := has_attempt_declare hd hp
      rcases h with ⟨_,h⟩ | ⟨_,_,_,h,_⟩
      · exact ih h hq
      · exact ih h hq
    · rw [declareLabels_other fun line name he => hx ⟨line,name,he⟩] at h
      exact ih h hp

/-- Each number that is given belongs to a label statement whose name was declared. -/
theorem names_declareLabels : ∀ (xs : List Stmt) {labels : List (String × Label)}
    {p p' : Progress}, (declareLabels xs).Gives p labels p' →
    p.scopes.current.caseSensitive = p.scopes.caseSensitive →
    ∀ x ∈ labels, ∃ y ∈ labelNames xs, p'.scopes.Has y.2 x.1 := by
  intro xs
  induction xs with
  | nil =>
    intro labels p p' h _
    rw [declareLabels] at h
    rw [(gives_pure.mp h).1]
    simp
  | cons x rest ih =>
    intro labels p p' h hrule
    by_cases hx : ∃ line name, x = .label line name
    · obtain ⟨line,name,rfl⟩ := hx
      obtain ⟨declared,q,hd,h⟩ := declareLabels_label h
      have hnames : labelNames (.label line name :: rest) = (line,name) :: labelNames rest := rfl
      rw [hnames]
      rcases attempt_cases (p.scopes.cautious_declare _) hd with
        ⟨symbol,scopes,hdecl,rfl,rfl⟩ | ⟨_,_,rfl,rfl⟩
      · obtain ⟨hsymbol,_,rfl⟩ := ScopeStack.declare_eq_ok hdecl
        rcases h with ⟨hn,_⟩ | ⟨_,more,hsome,hmore,rfl⟩
        · cases hn
        · obtain rfl := Option.some.inj hsome
          have hkey : p.scopes.normalize name = symbol.key := by
            rw [hsymbol,ScopeStack.normalize_eq,← hrule]
            rfl
          have hhas : (p.scopes.add [symbol]).Has name symbol.key := by
            refine ⟨?_,?_,?_⟩
            · rw [ScopeStack.normalize_add]
              exact hkey
            · rw [ScopeStack.current_add,ScopeStack.caseSensitive_add]
              exact hrule
            · rw [ScopeStack.current_add]
              simp [SymbolTable.entries,Symbol.forget]
          intro x hx
          rcases List.mem_cons.mp hx with rfl | hx
          · exact ⟨(line,name),List.mem_cons_self,has_declareLabels rest hmore hhas⟩
          · have hrule' : (p.scopes.add [symbol]).current.caseSensitive =
                (p.scopes.add [symbol]).caseSensitive := by
              rw [ScopeStack.current_add,ScopeStack.caseSensitive_add]
              exact hrule
            obtain ⟨y,hy,hhas⟩ := ih hmore hrule' x hx
            exact ⟨y,List.mem_cons_of_mem _ hy,hhas⟩
      · rcases h with ⟨_,h⟩ | ⟨_,_,hsome,_⟩
        · intro x hx
          obtain ⟨y,hy,hhas⟩ := ih h hrule x hx
          exact ⟨y,List.mem_cons_of_mem _ hy,hhas⟩
        · cases hsome
    · have hother : labelNames (x :: rest) = labelNames rest := by
        cases x <;> first | rfl | exact absurd ⟨_,_,rfl⟩ hx
      rw [declareLabels_other fun line name he => hx ⟨line,name,he⟩] at h
      rw [hother]
      exact ih h hrule

theorem missingLabel?_eq_none {code : Code} (h : ∀ l ∈ code.targets, l ∈ code.labels) :
    missingLabel? code = none := by
  refine List.find?_eq_none.mpr fun l hl => ?_
  obtain ⟨i,hi,hl⟩ := List.mem_filterMap.mp (h l hl)
  have hlabel : i = .label l := by
    cases i <;> cases hl
    rfl
  have hmem : code.contains (.label l) = true := List.contains_iff_mem.mpr (hlabel ▸ hi)
  rw [hmem]
  decide

/-- A body whose branches reach labels, unless something was recorded, is finished. -/
theorem settles_finish {r : Routine} {line : Line} {params mark : Nat} {frame : Frame}
    {step : Lower Code} (hstays : step.Stays r (p.state frame))
    (htotal : ∃ code s, step.Gives (p.state frame) code s)
    (htargets : ∀ code s, (bodyCode r step).Gives (p.state frame) code s → s.errors.length = mark →
      ∀ l ∈ code.targets, l ∈ code.labels) :
    (finish r line params mark frame step).Settles p := by
  unfold finish
  refine settles_bind (settles_body (stays_bodyCode hstays) (exists_bodyCode htotal)) ?_
  rintro ⟨code,frame'⟩ q hbody _
  obtain ⟨s,hs,_,rfl⟩ := gives_body.mp hbody
  refine settles_get_bind ?_
  have hadd : (if ((p.after s).entryPoints.lookup r.entry).isSome then
      Assemble.record ⟨line,.duplicateSymbol r.entry (p.after s).scopes.global.name⟩
      else set ((p.after s).add
        { name := r.entry, params, returns := r.returns, frame := frame', code })
      : Assemble Unit).Settles (p.after s) := by
    exact settles_ite (fun _ => settles_record rfl)
      fun _ => settles_set ⟨rfl,List.prefix_refl _,fun _ => .inl⟩
  refine settles_ite (fun hmark => ?_) fun _ => hadd
  rw [missingLabel?_eq_none (htargets code s hs hmark)]
  exact hadd

end labels

/-- What happens between the opening and the closing of a routine's scope. -/
def routineBody (language : Language) (entry : String) (handle : ScopeHandle)
    (x : StackCompiler.Routine) : Assemble Unit := do
  let mark := (← get).errors.length
  let key ← keyOf x.name
  let resultName := if language = .fortran ∧ x.returns ≠ .void then some key else none
  let frame ← declareParams [] x.params
  declareNested entry x.routines
  let labels ← declareLabels (Stmt.flattenAll x.body)
  let r : Routine :=
    { language, entry, depth := handle.depth, returns := x.returns, resultName, labels }
  finish r x.line x.params.length mark frame (stmts r x.body)
  routines language entry x.routines

def close (handle : ScopeHandle) : Assemble Unit := do
  let p ← get
  match p.scopes.pop handle with
  | (.error d,scopes) =>
    set { p with scopes }
    throw d
  | (.ok table,scopes) => set { p with scopes, closed := p.closed ++ [table] }

theorem routine_eq (language : Language) (entry : String) (x : StackCompiler.Routine) :
    routine language entry x = (do
      let opened ← attempt fun scopes =>
        (scopes.push x.name x.discipline).map (Except.mapError fun d => ⟨x.line,d.cause⟩) id
      match opened with
      | none => pure ()
      | some handle =>
        routineBody language entry handle x
        close handle) := by
  obtain ⟨name,discipline,params,returns,body,nested,line⟩ := x
  rw [routine]
  congr 1
  funext opened
  cases opened with
  | none => rfl
  | some handle =>
    simp only [routineBody,bind_assoc]
    rfl

theorem gives_close {handle : ScopeHandle} {p : Progress} {table : SymbolTable} {scopes : ScopeStack}
    (h : p.scopes.pop handle = (.ok table,scopes)) :
    (close handle).Gives p () { p with scopes, closed := p.closed ++ [table] } := by
  unfold close
  simp only [gives_bind,gives_get]
  refine ⟨p,p,⟨rfl,rfl⟩,?_⟩
  rw [h]
  exact gives_set.mpr rfl

section routines

variable {language : Language} {entry : String}

/-- Between opening and closing, the scopes that are open stay open. -/
theorem settles_routineBody (handle : ScopeHandle) {x : StackCompiler.Routine} {p : Progress}
    (hrule : p.scopes.current.caseSensitive = p.scopes.caseSensitive)
    (hnested : ∀ q, (routines language entry x.routines).Settles q) :
    (routineBody language entry handle x).Settles p := by
  unfold routineBody
  refine settles_get_bind ?_
  refine settles_bind (settles_keyOf x.name) fun key p₂ hkey h₂ => ?_
  refine settles_bind (settles_declareParams x.params [] p₂) fun frame p₃ _ h₃ => ?_
  refine settles_bind (settles_declareNested entry x.routines p₃) fun _ p₄ _ h₄ => ?_
  refine settles_bind (settles_declareLabels _ p₄) fun labels p₅ hlabels h₅ => ?_
  refine settles_bind (settles_finish (stays_stmts _ _ _) (exists_stmts _ _ _) ?_) fun _ q _ _ =>
    hnested q
  intro code s hbody hmark
  have hbefore : p.Balanced p₄ := h₂.trans (h₃.trans h₄)
  -- as many diagnostics as at the start means none from the start on
  have hgrows : p₅.errors <+: s.errors :=
    (changes_of_gives hbody (stays_bodyCode (stays_stmts _ _ _))).errors
  have hstart : p.errors <+: p₅.errors := hbefore.errors.trans h₅.errors
  have hsame : s.errors = p.errors := ((hstart.trans hgrows).eq_of_length hmark.symm).symm
  have hrule₄ : p₄.scopes.current.caseSensitive = p₄.scopes.caseSensitive := by
    rw [ScopeStack.rule_of_outline hbefore.outline,hrule]
    exact (congrArg Prod.snd hbefore.outline).symm
  exact targets_bodyCode hbody (stays_stmts _ _ _) (aims_stmts _ _) (defines_stmts _ _)
    (names_declareLabels _ hlabels hrule₄) (State.errors_eq hstart hgrows hsame).2

/-- A routine whose scope can be opened is put into code, and its scope is closed with the handle
that was given for it. -/
theorem exists_close {x : StackCompiler.Routine} {p : Progress} {handle : ScopeHandle}
    {scopes : ScopeStack} (hnested : ∀ q, (routines language entry x.routines).Settles q)
    (h : p.scopes.push x.name x.discipline = (.ok handle,scopes)) :
    ∃ q table outer, (routineBody language entry handle x).Gives { p with scopes } () q ∧
      q.scopes.pop handle = (.ok table,outer) ∧
      p.Balanced { q with scopes := outer, closed := q.closed ++ [table] } := by
  obtain ⟨hdepth,_,hcurrent,houter⟩ := push_eq_ok h
  have hrule : scopes.current.caseSensitive = scopes.caseSensitive := by
    rw [hcurrent]
    exact congrArg (·.table.caseSensitive) houter.symm
  obtain ⟨_,q,hbody,hq⟩ := settles_routineBody handle (p := { p with scopes }) hrule hnested
  have houtline : q.scopes.outline = _ := hq.outline.trans (ScopeStack.outline_push h)
  have hlength : p.scopes.outline.1.length = p.scopes.depth := List.length_map _
  obtain ⟨table,outer,hpop,hsame⟩ := ScopeStack.exists_pop houtline (by rw [hdepth,hlength])
  exact ⟨q,table,outer,hbody,hpop,hsame,hq.errors,hq.mild⟩

theorem gives_routine {x : StackCompiler.Routine} {p q : Progress} {handle : ScopeHandle}
    {scopes outer : ScopeStack} {table : SymbolTable}
    (hpush : p.scopes.push x.name x.discipline = (.ok handle,scopes))
    (hbody : (routineBody language entry handle x).Gives { p with scopes } () q)
    (hpop : q.scopes.pop handle = (.ok table,outer)) :
    (routine language entry x).Gives p ()
      { q with scopes := outer, closed := q.closed ++ [table] } := by
  rw [routine_eq]
  refine gives_bind.mpr ⟨some handle,{ p with scopes },?_,?_⟩
  · refine gives_attempt.mpr (.inl ⟨handle,scopes,?_,rfl,rfl⟩)
    rw [hpush]
    rfl
  · exact gives_bind.mpr ⟨(),q,hbody,gives_close hpop⟩

theorem settles_routine_of {x : StackCompiler.Routine}
    (hnested : ∀ q, (routines language entry x.routines).Settles q) (p : Progress) :
    (routine language entry x).Settles p := by
  rcases hpush : p.scopes.push x.name x.discipline with ⟨d | handle,scopes⟩
  · have hd : d.isFatal = false := ScopeStack.mild_push (s := p.scopes) d (congrArg Prod.fst hpush)
    obtain rfl := p.scopes.cautious_push _ _ d scopes hpush
    rw [routine_eq]
    refine settles_bind (settles_attempt (fun a scopes h => ?_) (fun e scopes h => ?_) fun e h => ?_)
      fun opened q hq _ => ?_
    · rw [hpush] at h
      cases h
    · rw [hpush] at h
      cases h
      rfl
    · rw [hpush] at h
      cases h
      exact hd
    · rcases gives_attempt.mp hq with ⟨_,_,h,_⟩ | ⟨_,_,_,rfl,_⟩
      · rw [hpush] at h
        cases h
      · exact settles_pure ()
  · obtain ⟨q,table,outer,hbody,hpop,hbalanced⟩ := exists_close hnested hpush
    exact ⟨(),_,gives_routine hpush hbody hpop,hbalanced⟩

end routines

mutual

theorem settles_routine (language : Language) : ∀ (x : StackCompiler.Routine) (entry : String)
    (p : Progress), (routine language entry x).Settles p
  | ⟨_,_,_,_,_,nested,_⟩, entry, p => settles_routine_of (settles_routines language nested entry) p

theorem settles_routines (language : Language) : ∀ (xs : List StackCompiler.Routine)
    (parent : String) (p : Progress), (routines language parent xs).Settles p
  | [], _, _ => by
    unfold routines
    exact settles_pure ()
  | x :: rest, parent, p => by
    unfold routines
    refine settles_bind (settles_keyOf x.name) fun _ q _ _ => ?_
    exact settles_bind (settles_routine language x _ q) fun _ q _ _ =>
      settles_routines language rest parent q

end

theorem settles_topLevel (language : Language) : ∀ (xs : List StackCompiler.Routine) (p : Progress),
    (topLevel language xs).Settles p
  | [], _ => settles_pure ()
  | x :: rest, p => by
    unfold topLevel
    refine settles_bind (settles_keyOf x.name) fun entry q _ _ => ?_
    exact settles_bind (settles_routine language x entry q) fun _ q _ _ =>
      settles_topLevel language rest q

theorem settles_sourceUnit (u : SourceUnit) {p : Progress}
    (hrule : p.scopes.current.caseSensitive = p.scopes.caseSensitive) : (sourceUnit u).Settles p := by
  unfold sourceUnit
  refine settles_bind (settles_declareAll _ p) fun _ p₁ _ h₁ => ?_
  refine settles_bind (settles_declareRoutines _ p₁) fun _ p₂ _ h₂ => ?_
  refine settles_get_bind ?_
  refine settles_bind (settles_keyOf u.name) fun entry p₄ hkey h₄ => ?_
  refine settles_bind (settles_declareLabels _ p₄) fun labels p₅ hlabels h₅ => ?_
  refine settles_bind (settles_finish (stays_mainBody _ u _) (exists_mainBody _ u _) ?_) fun _ q _ _ =>
    settles_topLevel _ _ q
  intro code s hbody hmark
  have hgrows : p₅.errors <+: s.errors :=
    (changes_of_gives hbody (stays_bodyCode (stays_mainBody _ u _))).errors
  have hstart : p₂.errors <+: p₅.errors := h₄.errors.trans h₅.errors
  have hsame : s.errors = p₂.errors := ((hstart.trans hgrows).eq_of_length hmark.symm).symm
  have hrule₄ : p₄.scopes.current.caseSensitive = p₄.scopes.caseSensitive := by
    have hbefore := (h₁.trans (h₂.trans h₄)).outline
    rw [ScopeStack.rule_of_outline hbefore,hrule]
    exact (congrArg Prod.snd hbefore).symm
  exact targets_bodyCode hbody (stays_mainBody _ u _) aims_mainBody (defines_mainBody _ u)
    (names_declareLabels _ hlabels hrule₄) (State.errors_eq hstart hgrows hsame).2

/-- A unit is put into code to its end. Its diagnostics are those recorded on the way; without any there
is a module. -/
theorem exists_run (u : SourceUnit) (caseSensitive : Bool) :
    ∃ p, (sourceUnit u).Gives (.initial u caseSensitive) () p ∧
      (Progress.initial u caseSensitive).Balanced p ∧
      (run u caseSensitive).2 = if p.errors.isEmpty then .ok (p.module u) else .error p.errors := by
  obtain ⟨_,p,hp,hbalanced⟩ := settles_sourceUnit u (p := .initial u caseSensitive) rfl
  have hrun : (sourceUnit u).run { scopes := .start u.name caseSensitive u.language.scoping } =
      (.ok (),p) := hp
  refine ⟨p,hp,hbalanced,?_⟩
  simp only [run,hrun]

theorem mild_run {u : SourceUnit} {caseSensitive : Bool} {ds : List Diagnostic}
    (h : (run u caseSensitive).2 = .error ds) : ∀ d ∈ ds, d.isFatal = false := by
  obtain ⟨p,_,hbalanced,hrun⟩ := exists_run u caseSensitive
  rw [hrun] at h
  split at h
  · cases h
  · cases h
    intro d hd
    rcases hbalanced.mild d hd with hd | hd
    · cases hd
    · exact hd

end Lowering

open Lowering in
/-- No diagnostic of a unit is fatal. From every progress a routine is put into code to its end, the
scope that it opens is closed with its own handle, and then as many scopes are open as before. -/
theorem SourceUnit.compile_completes (u : SourceUnit) (o : CompileOptions) :
    (∀ ds, u.compile o = .error ds → ∀ d ∈ ds, d.isFatal = false ∧
      (∀ detail, d.cause ≠ .scopeMismatch detail) ∧ ∀ l entry, d.cause ≠ .undefinedLabel l entry) ∧
    ∀ (language : Language) (entry : String) (x : StackCompiler.Routine) (p : Progress),
      ∃ p', (routine language entry x).Gives p () p' ∧ p'.scopes.depth = p.scopes.depth ∧
        ∀ handle scopes, p.scopes.push x.name x.discipline = (.ok handle,scopes) →
          ∃ q table, (routineBody language entry handle x).Gives { p with scopes } () q ∧
            q.scopes.pop handle = (.ok table,p'.scopes) := by
  constructor
  · intro ds h d hd
    unfold compile at h
    cases hrun : (run u (o.caseRule u)).2 with
    | ok m =>
      rw [hrun] at h
      cases h
    | error es =>
      rw [hrun] at h
      cases h
      have hmild := mild_run hrun d hd
      refine ⟨hmild,fun detail hc => ?_,fun l entry hc => ?_⟩ <;>
        (rw [Diagnostic.isFatal,hc] at hmild; cases hmild)
  · intro language entry x p
    obtain ⟨_,p',hgives,hbalanced⟩ := settles_routine language x entry p
    refine ⟨p',hgives,ScopeStack.depth_of_outline hbalanced.outline,fun handle scopes hpush => ?_⟩
    obtain ⟨q,table,outer,hbody,hpop,_⟩ :=
      exists_close (settles_routines language x.routines entry) hpush
    have hsame := (gives_routine hpush hbody hpop).symm.trans hgives
    cases hsame
    exact ⟨q,table,hbody,hpop⟩

def strayBranch : List Stmt :=
  [.ifElse 1 (.literal 1 (.integer 1)) [.label 2 "HERE"] [],.goto 3 "HERE"]

def stray : SourceUnit :=
  { name := "STRAY"
    language := .comal
    main := strayBranch
    routines := [{ name := "INNER", body := strayBranch }] }

def diagnostics (x : Except (List Diagnostic) Module) : List Diagnostic :=
  match x with
  | .error ds => ds
  | .ok _ => []

open Lowering in
theorem SourceUnit.compile_completes_stray :
    (∃ ds, stray.compile {} = .error ds ∧ ds.length = 2 ∧ ∀ d ∈ ds, d.isFatal = false) ∧
    ∃ x ∈ stray.routines, ∃ handle scopes q table p',
      (Progress.initial stray true).scopes.push x.name x.discipline = (.ok handle,scopes) ∧
      (routineBody .comal x.name handle x).Gives { Progress.initial stray true with scopes } () q ∧
      q.scopes.pop handle = (.ok table,p'.scopes) ∧
      (routine .comal x.name x).Gives (.initial stray true) () p' ∧ p'.scopes.depth = 0 := by
  constructor
  · have hlength : (diagnostics (stray.compile {})).length = 2 := by decide +kernel
    cases hcompile : stray.compile {} with
    | ok m =>
      rw [hcompile] at hlength
      cases hlength
    | error ds =>
      rw [hcompile] at hlength
      exact ⟨ds,rfl,hlength,fun d hd => ((SourceUnit.compile_completes _ _).1 ds hcompile d hd).1⟩
  · obtain ⟨p',hroutine,hdepth,hclose⟩ := (SourceUnit.compile_completes stray {}).2 .comal "INNER"
      { name := "INNER", body := strayBranch } (.initial stray true)
    obtain ⟨q,table,hbody,hpop⟩ := hclose _ _ rfl
    exact ⟨_,List.mem_cons_self,_,_,q,table,p',rfl,hbody,hpop,hroutine,hdepth⟩

end StackCompiler
