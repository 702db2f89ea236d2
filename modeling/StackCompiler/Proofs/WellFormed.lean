import StackCompiler.Proofs.References

/-! Compiled modules are well-formed, whatever passes ran. -/
namespace StackCompiler

namespace Lowering

open Lower Code

/-- The labels of a routine are those that were declared in its scope. -/
theorem names_of_keys {r : Routine} {scopes : ScopeStack} (before : List Symbol) {xs : List Stmt}
    (hrule : scopes.current.caseSensitive = scopes.caseSensitive)
    (hkeys : r.labels.map Prod.fst =
      (labelNames xs).map fun y => (labelSymbol scopes.current y).key) :
    r.Names (scopes.add (before ++ (labelNames xs).map (labelSymbol scopes.current))) xs := by
  intro x hx
  have hmem : x.1 ∈ r.labels.map Prod.fst := List.mem_map_of_mem hx
  rw [hkeys] at hmem
  obtain ⟨y,hy,hkey⟩ := List.mem_map.mp hmem
  refine ⟨y,hy,?_,?_,?_⟩
  · rw [ScopeStack.normalize_add,ScopeStack.normalize_eq,← hrule]
    exact hkey
  · rw [ScopeStack.current_add,ScopeStack.caseSensitive_add]
    exact hrule
  · rw [ScopeStack.current_add,← hkey]
    refine List.mem_map_of_mem (f := Symbol.key) (a := (labelSymbol scopes.current y).forget) ?_
    exact List.mem_map_of_mem (List.mem_append_right _
      (List.mem_append_right _ (List.mem_map_of_mem hy)))

theorem ends_bodyCode {r : Routine} {step : Lower Code} {s s' : State} {code : Code}
    (h : (bodyCode r step).Gives s code s') : code.Ends := by
  obtain ⟨body,t,_,⟨hreturn,rfl,_⟩ | ⟨_,more,hm,rfl⟩⟩ := gives_bodyCode.mp h
  · unfold endsWithReturn at hreturn
    split at hreturn
    · next value hlast => exact ⟨.ret value,hlast,rfl⟩
    · cases hreturn
  · refine Ends.append ?_
    cases epilogue_cases hm with
    | nothing => exact ⟨.ret false,rfl,rfl⟩
    | result => exact ⟨.ret true,rfl,rfl⟩
    | zero => exact Ends.append ⟨.ret true,rfl,rfl⟩

section finished

variable {u : SourceUnit} {caseSensitive : Bool} {language : Language} {final : List RoutineCode}
  {ground : ScopeStack} {tops : List StackCompiler.Routine} {body : Evaluation.Body}
  {rc : RoutineCode}

theorem mem_targets {code : Code} {l : Label} (h : .target l ∈ code.references) :
    l ∈ code.targets := by
  obtain ⟨i,hi,hl⟩ := exists_target h
  exact List.mem_filterMap.mpr ⟨i,hi,hl⟩

theorem Finished.complete (h : Finished language final ground tops body rc)
    (hground : Grounded u caseSensitive ground) :
    rc.Complete (body.routine.params.map Param.type) := by
  have hlowered := h.lowered hground
  obtain ⟨b,_,_,_,hbody,herrors,_⟩ := h
  have hchanges := changes_of_gives hbody (stays_bodyCode (stays_stmts _ _ _))
  refine ⟨hlowered.indexed,(List.length_map _).symm,?_,fun n hn => hlowered.within.slots hn,?_,
    ends_bodyCode hbody⟩
  · rw [List.map_map]
    exact b.params_finished _ hchanges
  · intro l hl
    have hrule : b.scopes.current.caseSensitive = b.scopes.caseSensitive :=
      b.rule_current.trans (ScopeStack.caseSensitive_add _ _)
    exact targets_bodyCode hbody (stays_stmts _ _ _) (aims_stmts _ _) (defines_stmts _ _)
      (names_of_keys _ hrule b.keys) (herrors.2.trans herrors.1.symm) l (mem_targets hl)

theorem FinishedMain.complete (h : FinishedMain u caseSensitive final ground rc)
    (hground : Grounded u caseSensitive ground) : rc.Complete [] := by
  have hlowered := h.lowered hground
  obtain ⟨b,_,_,hrule,_,_,_,hbody,herrors⟩ := h
  refine ⟨hlowered.indexed,rfl,by simp [PreparedMain.finished],
    fun n hn => hlowered.within.slots hn,?_,ends_bodyCode hbody⟩
  intro l hl
  exact targets_bodyCode hbody (stays_mainBody _ u _) aims_mainBody (defines_mainBody _ u)
    (names_of_keys [] hrule b.keys) (herrors.2.trans herrors.1.symm) l (mem_targets hl)

/-- The variables that typed code names are those of the outermost scope. -/
theorem mem_outer_of_types {outer : List (String × Ty)} {size : Nat} {code : Code}
    {st st' : List Ty} (h : code.Types (looseContext language final outer size) st st')
    {name : String} (hn : .place (.global name) ∈ code.references) : name ∈ outer.map Prod.fst := by
  obtain ⟨i,hi,hp⟩ := exists_place hn
  obtain ⟨_,_,htypes⟩ := h.of_mem hi
  obtain ⟨t,ht⟩ := htypes.place hp
  exact List.mem_map.mpr ⟨(name,t),ht,rfl⟩

theorem nodup_globals {t : SymbolTable} (h : t.Distinct) : ((globals t).map Prod.fst).Nodup := by
  rw [globals,List.map_map]
  exact h.sublist (List.filter_sublist.map _)

end finished
end Lowering

/-- A routine as it has to be in a module with the given variables, with parameters of the given
types. -/
structure RoutineCode.WellFormed (globals : List (String × Ty)) (params : List Ty)
    (rc : RoutineCode) : Prop where
  indexed : ∀ (n : Nat) (slot : SlotInfo), rc.frame[n]? = some slot → slot.index = n
  slots : ∀ i ∈ rc.code, ∀ n, i.slot? = some n → n < rc.frame.length
  count : rc.params = params.length
  params : (rc.frame.take rc.params).map (fun slot => (slot.kind,slot.type)) =
    params.map fun t => (SlotKind.parameter,t)
  globals : ∀ i ∈ rc.code, ∀ name, i.place? = some (.global name) → name ∈ globals.map Prod.fst
  targets : ∀ i ∈ rc.code, ∀ l, i.target? = some l → .label l ∈ rc.code
  ends : ∃ i, rc.code.getLast? = some i ∧ i.endsFlow = true

namespace RoutineCode

variable {globals : List (String × Ty)} {params : List Ty} {rc : RoutineCode}

theorem Complete.wellFormed (h : rc.Complete params)
    (hg : ∀ name, .place (.global name) ∈ rc.code.references → name ∈ globals.map Prod.fst) :
    rc.WellFormed globals params where
  indexed := h.indexed
  slots i hi n hn := by
    obtain ⟨p,hp,hslot⟩ := Option.bind_eq_some_iff.mp hn
    cases p with
    | slot m =>
      obtain rfl := Option.some.inj hslot
      exact h.slots m (Code.mem_references_of_place hi hp)
    | global => cases hslot
  count := h.count
  params := h.params
  globals i hi name hp := hg name (Code.mem_references_of_place hi hp)
  targets i hi l hl := Code.mem_labels.mp (h.targets l (Code.mem_references_of_target hi hl))
  ends := h.ends

theorem Complete.wellFormed_optimize (h : rc.Complete params) (hr : rc.Lowered) (p : Passes)
    (hg : ∀ name, .place (.global name) ∈ rc.code.references → name ∈ globals.map Prod.fst) :
    (p.optimize rc).WellFormed globals params :=
  (p.complete_optimize h hr).wellFormed fun name hn =>
    hg name (p.references_optimize hn fun _ => nofun)

end RoutineCode

theorem flatMap_labels_optimize (p : Passes) (rs : List RoutineCode) :
    (rs.map p.optimize).flatMap (·.code.labels) = rs.flatMap (·.code.labels) := by
  rw [List.flatMap_map]
  exact List.flatMap_congr fun rc _ => p.labels_optimize rc

/-- Every compiled module is well-formed: its variables have different names, no label is defined
twice, and its routines, the main program and then those of the unit in order, have in themselves or
in the module all that they refer to. -/
theorem SourceUnit.compile_wellFormed {u : SourceUnit} {o : CompileOptions} {m : Module}
    (h : u.compile o = .ok m) :
    (m.globals.map Prod.fst).Nodup ∧ (m.routines.flatMap (·.code.labels)).Nodup ∧
    ∃ main rest, m.routines = main :: rest ∧ main.WellFormed m.globals [] ∧
      List.Forall₂ (fun x rc => rc.WellFormed m.globals (x.params.map Param.type))
        (Routine.preorderAll u.routines) rest := by
  obtain ⟨m₀,hrun,rfl⟩ := compile_eq_ok h
  obtain ⟨ground,main,rest,ha⟩ := Lowering.assembled_of_run hrun
  have hlowered := Lowering.lowered_of_run hrun
  have hmain : main ∈ m₀.routines := by
    rw [ha.routines]
    exact List.mem_cons_self
  refine ⟨?_,?_,o.passes.optimize main,rest.map o.passes.optimize,?_,?_,?_⟩
  · change (m₀.globals.map Prod.fst).Nodup
    rw [ha.globals]
    exact Lowering.nodup_globals ha.grounded.distinct
  · change ((m₀.routines.map o.passes.optimize).flatMap (·.code.labels)).Nodup
    rw [flatMap_labels_optimize]
    exact ha.labels
  · change m₀.routines.map o.passes.optimize = _
    rw [ha.routines]
    rfl
  · refine (ha.mainProgram.complete ha.grounded).wellFormed_optimize (hlowered main hmain) _ ?_
    intro name hn
    change name ∈ m₀.globals.map Prod.fst
    rw [ha.globals]
    exact Lowering.mem_outer_of_types (ha.mainProgram.loose ha.grounded) hn
  · rw [← Evaluation.routine_subprograms u,List.forall₂_map_left_iff]
    refine List.forall₂_map_right_iff.mpr (ha.others.imp fun body rc hf => ?_)
    refine (hf.complete ha.grounded).wellFormed_optimize (hf.lowered ha.grounded) _ ?_
    intro name hn
    change name ∈ m₀.globals.map Prod.fst
    rw [ha.globals]
    exact Lowering.mem_outer_of_types (hf.loose ha.grounded) hn

/-- A routine inside another, loops with and without labels, and an array of the outermost scope. -/
def nestedRoutines : SourceUnit :=
  let one : Expr := .literal 1 (.integer 1)
  let sum : Expr := .binary 3 (.ident 3 "A") .add (.ident 3 "B")
  { name := "NESTED"
    language := .comal
    globals := [{ name := "TABLE", base := .integer, dimensions := [.dynamic], extents := [one] }]
    main := [
      .label 1 "TOP",
      .assign 1 { name := "TABLE", indices := [one] } (.call 1 "SUM" [one,one]),
      .goto 2 "TOP"]
    routines := [
      { name := "SUM"
        params := [{ name := "A", base := .integer },{ name := "B", base := .integer }]
        returns := .integer
        body := [.call 3 "SHOW" [sum],.ret 4 (some sum)]
        routines := [
          { name := "SHOW"
            params := [{ name := "X", base := .double }]
            body := [.whileDo 5 (.literal 5 (.boolean true)) [.print 5 [.ident 5 "X"]]] }] }] }

theorem SourceUnit.compile_wellFormed_nestedRoutines :
    ∃ m, nestedRoutines.compile {} = .ok m ∧ m.routines.map (·.code.length) = [10,9,7] ∧
      (m.globals.map Prod.fst).Nodup ∧ (m.routines.flatMap (·.code.labels)).Nodup ∧
      ∃ main sum inner, m.routines = [main,sum,inner] ∧ main.WellFormed m.globals [] ∧
        sum.WellFormed m.globals [.scalar .integer,.scalar .integer] ∧
        inner.WellFormed m.globals [.scalar .double] := by
  have hlengths : codeLengths (nestedRoutines.compile {}) = some [10,9,7] := by decide +kernel
  obtain ⟨m,hm,hlength⟩ := exists_of_codeLengths hlengths
  obtain ⟨hglobals,hlabels,main,rest,hroutines,hmain,hrest⟩ := SourceUnit.compile_wellFormed hm
  refine ⟨m,hm,hlength,hglobals,hlabels,?_⟩
  cases hrest with
  | cons hsum hrest =>
    cases hrest with
    | cons hinner hrest =>
      cases hrest
      exact ⟨main,_,_,hroutines,hmain,hsum,hinner⟩

end StackCompiler
