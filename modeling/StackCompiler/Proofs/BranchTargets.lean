import StackCompiler.Proofs.Labels

/-! Where the branches of a body go.
A branch goes to a label of the statement that it belongs to, or to one that the routine has by name.
A body without diagnostics defines all of these, as no label statement was given up. -/
namespace StackCompiler

namespace Code

def targets (code : Code) : List Label := code.filterMap Instr.target?

@[simp] theorem targets_nil : targets [] = [] := rfl

@[simp] theorem targets_append (a b : Code) : (a ++ b).targets = a.targets ++ b.targets :=
  List.filterMap_append

@[simp] theorem targets_cons (i : Instr) (code : Code) :
    targets (i :: code) = i.target?.toList ++ code.targets := by
  cases h : i.target? <;> simp [targets,h]

theorem Plain.targets {code : Code} (h : Plain code) : code.targets = [] :=
  List.filterMap_eq_nil_iff.mpr fun i hi => (h i hi).2

end Code

structure ScopeStack.Has (s : ScopeStack) (name key : String) : Prop where
  normal : s.normalize name = key
  rule : s.current.caseSensitive = s.caseSensitive
  mem : key ∈ s.current.entries.map Symbol.key

namespace ScopeStack.Has

variable {s s' : ScopeStack} {name key : String}

/-- The symbol in the innermost scope is the one that the name means. -/
theorem key_of_resolve (h : s.Has name key) {found : Symbol × Nat}
    (hf : s.resolve name = some found) : found.1.key = key := by
  have hscopes : ∃ rest, s.scopes = s.top :: rest := by
    unfold scopes top
    cases s.inner with
    | nil => exact ⟨[],rfl⟩
    | cons scope rest => exact ⟨rest ++ [s.outermost],rfl⟩
  obtain ⟨rest,hrest⟩ := hscopes
  have hkey : s.top.table.normalize (s.normalize name) = key := by
    have hrule : s.top.table.caseSensitive = s.caseSensitive := h.rule
    rw [SymbolTable.normalize,hrule,normalize_eq,normalize_normalize,← normalize_eq]
    exact h.normal
  rw [resolve,hrest,find,SymbolTable.lookup,hkey] at hf
  obtain ⟨symbol,hsymbol,hk⟩ := List.mem_map.mp h.mem
  obtain ⟨old,hold,rfl⟩ := List.mem_map.mp hsymbol
  cases hget : s.top.table.get? key with
  | none =>
    have := List.find?_eq_none.mp hget old hold
    exact absurd (beq_iff_eq.mpr hk) this
  | some x =>
    have hx := List.find?_some hget
    rw [hget] at hf
    cases hf
    exact beq_iff_eq.mp hx

theorem of_forget (h : s.Has name key) (he : s'.forget = s.forget) : s'.Has name key := by
  have hcurrent : s'.current.forget = s.current.forget := by
    rw [← current_forget,he,current_forget]
  have hrule : s'.caseSensitive = s.caseSensitive := congrArg (·.outermost.table.caseSensitive) he
  refine ⟨(normalize_of_forget he).trans h.normal,?_,?_⟩
  · have htable := congrArg SymbolTable.caseSensitive hcurrent
    exact htable.trans (h.rule.trans hrule.symm)
  · have hentries : s'.current.entries = s.current.entries := congrArg SymbolTable.symbols hcurrent
    rw [hentries]
    exact h.mem

theorem add (h : s.Has name key) (symbols : List Symbol) : (s.add symbols).Has name key := by
  refine ⟨?_,?_,?_⟩
  · rw [normalize_add]
    exact h.normal
  · rw [current_add,caseSensitive_add]
    exact h.rule
  · rw [current_add,SymbolTable.entries,List.map_append,List.map_append]
    exact List.mem_append_left _ h.mem

theorem share (h : s.Has name key) {other : String} {line : Line} {symbol : Symbol}
    (hs : s.share other line = (.ok symbol,s')) : s'.Has name key := by
  obtain ⟨scope,rest,_,hi,_,rfl⟩ := share_eq_ok hs
  have htable : (scope.share (s.normalize other)).table = s.current := by
    unfold Scope.share current top
    rw [hi]
    split <;> rfl
  refine ⟨h.normal,?_,?_⟩
  · exact (congrArg SymbolTable.caseSensitive htable).trans h.rule
  · change key ∈ (scope.share (s.normalize other)).table.entries.map Symbol.key
    rw [htable]
    exact h.mem

end ScopeStack.Has

namespace Lowering

open Lower Code

theorem State.Changes.has {r : Routine} {s s' : State} {name key : String} (h : s.Changes r s')
    (hs : s.scopes.Has name key) : s'.scopes.Has name key := by
  induction h with
  | refl => exact hs
  | tail _ hstep ih =>
    cases hstep with
    | touch found line => exact ih.of_forget (ScopeStack.forget_touch _ found line)
    | share h => exact ih.share h
    | declare _ h =>
      obtain ⟨_,_,_,_,rfl⟩ := declare_cases h
      exact ih.add _
    | label | record | temp | slot | result => exact ih

/-- Every branch goes to a label of the code, or to one that the routine has by name. -/
def Routine.Aims (r : Routine) (code : Code) : Prop :=
  ∀ l ∈ code.targets, l ∈ code.labels ∨ ∃ key, r.labels.lookup key = some l

section aims

variable {r : Routine} {s s' : State} {code : Code}

theorem aims_of_plain (h : code.Plain) : r.Aims code := by
  intro l hl
  rw [h.targets] at hl
  cases hl

theorem Routine.Aims.append {a b : Code} (ha : r.Aims a) (hb : r.Aims b) : r.Aims (a ++ b) := by
  intro l hl
  rw [targets_append] at hl
  rw [labels_append]
  rcases List.mem_append.mp hl with hl | hl
  · exact (ha l hl).imp_left (List.mem_append_left _)
  · exact (hb l hl).imp_left (List.mem_append_right _)

theorem targets_loop (head : ForHead) (again test : Label) (body : Code) (hh : head.code.Plain) :
    (head.loop again test body).targets = [test] ++ body.targets ++ [again] := by
  simp [ForHead.loop,hh.targets,(plain_test head).targets,(plain_load head.step).targets,
    Instr.target?]

/-- A branch to a named label goes to a label of the routine. -/
theorem aims_goto {line : Line} {name : String} (h : (stmt r (.goto line name)).Gives s code s') :
    r.Aims code := by
  rw [stmt,gives_bind] at h
  obtain ⟨l,t,hl,h⟩ := h
  rw [(gives_pure.mp h).1]
  obtain ⟨found,_,_,hlookup,_⟩ := gives_labelOf.mp hl
  intro l' hl'
  obtain rfl : l' = l := by simpa [Instr.target?] using hl'
  exact .inr ⟨_,hlookup⟩

end aims

mutual

theorem aims_stmt (r : Routine) : ∀ (x : Stmt) {s : State} {code : Code} {s' : State},
    (stmt r x).Gives s code s' → r.Aims code
  | .declare _ _, _, _, _, h => aims_of_plain (plain_declaration (by rwa [stmt] at h))
  | .share _ names, _, _, _, h => aims_of_plain (plain_shareAll names (by rwa [stmt] at h))
  | .assign .., _, _, _, h => aims_of_plain (plain_assign (by rwa [stmt] at h))
  | .call .., _, _, _, h => aims_of_plain (plain_callStmt (by rwa [stmt] at h))
  | .ifElse _ _ yes no, _, _, _, h => by
    obtain ⟨test,t,yesCode,u,noCode,ht,hyes,hno,rfl⟩ := gives_ifElse.mp h
    have hyes := aims_stmts r yes hyes
    have hno := aims_stmts r no hno
    intro l hl
    cases hn : no.isEmpty <;>
      simp [hn,(plain_condition ht).targets,(plain_condition ht).labels,Instr.target?,
        Instr.label?] at hl ⊢ <;>
      grind [Routine.Aims]
  | .whileDo _ _ body, _, _, _, h => by
    obtain ⟨bodyCode,t,test,hbody,ht,rfl⟩ := gives_whileDo.mp h
    have hbody := aims_stmts r body hbody
    intro l hl
    simp [(plain_condition ht).targets,(plain_condition ht).labels,Instr.target?,
      Instr.label?] at hl ⊢
    grind [Routine.Aims]
  | .repeatUntil _ body _, _, _, _, h => by
    obtain ⟨bodyCode,t,test,hbody,ht,rfl⟩ := gives_repeatUntil.mp h
    have hbody := aims_stmts r body hbody
    intro l hl
    simp [(plain_condition ht).targets,(plain_condition ht).labels,Instr.target?,
      Instr.label?] at hl ⊢
    grind [Routine.Aims]
  | .forTo _ _ _ _ _ body, _, _, _, h => by
    obtain ⟨head,t,bodyCode,hh,hbody,rfl⟩ := gives_forTo.mp h
    have hbody := aims_stmts r body hbody
    intro l hl
    rw [targets_loop head _ _ _ (plain_forHead hh)] at hl
    rw [labels_loop head _ _ _ (plain_forHead hh)]
    simp at hl ⊢
    grind [Routine.Aims]
  | .label .., _, _, _, h => by
    rw [stmt] at h
    simp only [gives_bind,gives_pure] at h
    obtain ⟨l,_,_,rfl,_⟩ := h
    intro l' hl'
    cases hl'
  | .goto .., _, _, _, h => aims_goto h
  | .ret .., _, _, _, h => aims_of_plain (plain_ret (by rwa [stmt] at h))
  | .print _ values, _, _, _, h => aims_of_plain (plain_printAll values (by rwa [stmt] at h))
  | .stop _, _, _, _, h => by
    rw [stmt] at h
    rw [(gives_pure.mp h).1]
    intro l hl
    cases hl

theorem aims_stmts (r : Routine) : ∀ (xs : List Stmt) {s : State} {code : Code} {s' : State},
    (stmts r xs).Gives s code s' → r.Aims code
  | [], _, _, _, h => by
    rw [stmts] at h
    rw [(gives_pure.mp h).1]
    exact aims_of_plain plain_nil
  | x :: rest, _, _, _, h => by
    obtain ⟨first,t,more,hx,hm,rfl⟩ := gives_stmts_cons.mp h
    refine Routine.Aims.append ?_ (aims_stmts r rest hm)
    rcases gives_recover.mp hx with hx | ⟨_,_,_,_,rfl,_⟩
    · exact aims_stmt r x hx
    · exact aims_of_plain plain_nil

end

/-- Without diagnostics, the code defines the label of every label statement. -/
def Defines (r : Routine) (xs : List Stmt) (x : Lower Code) : Prop :=
  ∀ (s : State) (code : Code) (s' : State), x.Gives s code s' → s'.errors = s.errors →
    ∀ y ∈ labelNames xs, ∀ (key : String) (l : Label), s.scopes.Has y.2 key →
      r.labels.lookup key = some l → l ∈ code.labels

section defines

variable {r : Routine}

theorem defines_of_nil {xs : List Stmt} {x : Lower Code} (h : labelNames xs = []) :
    Defines r xs x := by
  intro s code s' _ _ y hy
  rw [h] at hy
  cases hy

theorem defines_label (line : Line) (name : String) :
    Defines r [.label line name] (stmt r (.label line name)) := by
  intro s code s' h _ y hy key l hkey hl
  obtain rfl : y = (line,name) := List.mem_singleton.mp hy
  rw [stmt,gives_bind] at h
  obtain ⟨n,t,hn,h⟩ := h
  rw [(gives_pure.mp h).1]
  obtain ⟨found,hr,_,hlookup,_⟩ := gives_labelOf.mp hn
  rw [hkey.key_of_resolve hr,hl] at hlookup
  cases hlookup
  exact List.mem_cons_self

theorem labelNames_append (xs ys : List Stmt) :
    labelNames (xs ++ ys) = labelNames xs ++ labelNames ys :=
  List.filterMap_append

end defines

mutual

theorem defines_stmt (r : Routine) : ∀ (x : Stmt), Defines r x.flatten (stmt r x)
  | .declare .. | .share .. | .assign .. | .call .. | .goto .. | .ret .. | .print .. | .stop _ =>
    defines_of_nil rfl
  | .ifElse line cond yes no => by
    intro s code s' h he y hy key l hkey hl
    obtain ⟨test,t,yesCode,u,noCode,ht,hyes,hno,rfl⟩ := gives_ifElse.mp h
    have hst := changes_of_gives ht (stays_condition (r := r))
    have htu := changes_of_gives hyes (stays_stmts r yes _)
    obtain ⟨heu,hes⟩ := errors_of_branches ht hyes hno he
    have hy' : y ∈ labelNames (Stmt.flattenAll yes) ∨ y ∈ labelNames (Stmt.flattenAll no) := by
      rw [← List.mem_append,← labelNames_append]
      exact hy
    rcases hy' with hy | hy
    · have hmem := defines_stmts r yes _ _ _ hyes heu y hy key l (hst.has hkey) hl
      simp [hmem]
    · have hmem := defines_stmts r no _ _ _ hno hes y hy key l (htu.has (hst.has hkey)) hl
      have hn : no.isEmpty = false := by
        cases no with
        | nil => cases hy
        | cons => rfl
      simp [hn,hmem]
  | .whileDo _ cond body => by
    intro s code s' h he y hy key l hkey hl
    obtain ⟨bodyCode,t,test,hbody,ht,rfl⟩ := gives_whileDo.mp h
    have hmem := defines_stmts r body _ _ _ hbody (errors_of_body hbody ht he) y hy key l hkey hl
    simp [hmem]
  | .repeatUntil _ body cond => by
    intro s code s' h he y hy key l hkey hl
    obtain ⟨bodyCode,t,test,hbody,ht,rfl⟩ := gives_repeatUntil.mp h
    have hmem := defines_stmts r body _ _ _ hbody (errors_of_body hbody ht he) y hy key l hkey hl
    simp [hmem]
  | .forTo _ name first last step body => by
    intro s code s' h he y hy key l hkey hl
    obtain ⟨head,t,bodyCode,hh,hbody,rfl⟩ := gives_forTo.mp h
    have hst := changes_of_gives hh (stays_forHead (r := r))
    have herr := errors_of_forTo hh hbody he
    have hmem := defines_stmts r body _ _ _ hbody herr y hy key l (hst.has hkey) hl
    rw [labels_loop head _ _ _ (plain_forHead hh)]
    simp [hmem]
  | .label line name => defines_label line name

theorem defines_stmts (r : Routine) : ∀ (xs : List Stmt),
    Defines r (Stmt.flattenAll xs) (stmts r xs)
  | [] => defines_of_nil rfl
  | x :: rest => by
    intro s code s' h he y hy key l hkey hl
    obtain ⟨first,t,more,hx,hm,rfl⟩ := gives_stmts_cons.mp h
    have hst := changes_of_gives hx (stays_recover (stays_stmt r x s))
    have hts := changes_of_gives hm (stays_stmts r rest t)
    obtain ⟨het,hes⟩ := State.errors_eq hst.errors hts.errors he
    rw [Stmt.flattenAll,labelNames_append,List.mem_append] at hy
    rw [labels_append]
    rcases hy with hy | hy
    · have hx' := gives_of_recover hx (stays_stmt r x s) het
      exact List.mem_append_left _ (defines_stmt r x _ _ _ hx' het y hy key l hkey hl)
    · exact List.mem_append_right _
        (defines_stmts r rest _ _ _ hm hes y hy key l (hst.has hkey) hl)

end

/-- Every label of the routine belongs to a label statement whose name the innermost scope has. -/
def Routine.Names (r : Routine) (scopes : ScopeStack) (xs : List Stmt) : Prop :=
  ∀ x ∈ r.labels, ∃ y ∈ labelNames xs, scopes.Has y.2 x.1

section bodies

variable {r : Routine} {xs : List Stmt}

theorem mem_of_lookup_labels {labels : List (String × Label)} {key : String} {l : Label}
    (h : labels.lookup key = some l) : (key,l) ∈ labels := by
  obtain ⟨before,after,rfl,_⟩ := List.lookup_eq_some_iff.mp h
  exact List.mem_append_right _ List.mem_cons_self

theorem aims_mainBody {u : SourceUnit} {s s' : State} {code : Code}
    (h : (mainBody r u).Gives s code s') : r.Aims code := by
  simp only [mainBody,gives_bind,gives_pure] at h
  obtain ⟨arrays,t,ha,body,_,hb,rfl,rfl⟩ := h
  exact (aims_of_plain (plain_allocateAll _ ha)).append (aims_stmts r u.main hb)

theorem defines_mainBody (r : Routine) (u : SourceUnit) :
    Defines r (Stmt.flattenAll u.main) (mainBody r u) := by
  intro s code s' h he y hy key l hkey hl
  simp only [mainBody,gives_bind,gives_pure] at h
  obtain ⟨arrays,t,ha,body,_,hb,rfl,rfl⟩ := h
  have hst := changes_of_gives ha (stays_allocateAll r u.globals s)
  have hts := changes_of_gives hb (stays_stmts r u.main t)
  have hmem := defines_stmts r u.main _ _ _ hb (State.errors_eq hst.errors hts.errors he).2 y hy key l (hst.has hkey) hl
  rw [labels_append]
  exact List.mem_append_right _ hmem

/-- In a body without diagnostics every branch goes to a label of the body. -/
theorem targets_bodyCode {step : Lower Code} {s s' : State} {code : Code}
    (h : (bodyCode r step).Gives s code s') (hstays : step.Stays r s)
    (haims : ∀ {s code s'}, step.Gives s code s' → r.Aims code) (hdefines : Defines r xs step)
    (hnames : r.Names s.scopes xs) (he : s'.errors = s.errors) :
    ∀ l ∈ code.targets, l ∈ code.labels := by
  obtain ⟨body,t,hb,h⟩ := gives_bodyCode.mp h
  have hst := changes_of_gives hb hstays
  have hbody : t.errors = s.errors → ∀ l ∈ body.targets, l ∈ body.labels := by
    intro het l hl
    rcases haims hb l hl with hl | ⟨key,hkey⟩
    · exact hl
    · obtain ⟨y,hy,hhas⟩ := hnames _ (mem_of_lookup_labels hkey)
      exact hdefines s body t hb het y hy key l hhas hkey
  rcases h with ⟨_,rfl,rfl⟩ | ⟨_,more,hm,rfl⟩
  · exact hbody he
  · have hts := changes_of_gives hm (stays_epilogue (r := r))
    rw [targets_append,labels_append,(plain_epilogue hm).targets,List.append_nil]
    intro l hl
    exact List.mem_append_left _ (hbody (State.errors_eq hst.errors hts.errors he).1 l hl)

end bodies

end Lowering
end StackCompiler
