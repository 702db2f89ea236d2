import StackCompiler.Compile
import StackCompiler.Proofs.ReusedValues
import StackCompiler.Proofs.SharedSlots
import StackCompiler.Proofs.Windows

/-! Optimized modules run as the modules they come from.
Each pass gives routines that cannot be told apart from those before it, so this is a matter of
putting the passes together and carrying what they need from one to the next. -/
namespace StackCompiler

open Machine

namespace Passes

variable {o : Operations} {r : RoutineCode}

theorem lowered_shared (p : Passes) (h : r.Lowered) : (p.shared r).Lowered := by
  unfold shared
  split
  · exact h.shareSlots
  · exact h

theorem interchangeable_shared (p : Passes) (h : r.Lowered) : Interchangeable o r (p.shared r) := by
  unfold shared
  split
  · exact h.interchangeable_shareSlots o
  · exact .refl o r

theorem interchangeable_reused (p : Passes) (h : r.Lowered) : Interchangeable o r (p.reused r) := by
  have hshared := p.interchangeable_shared (o := o) h
  unfold reused
  split
  · exact hshared.trans ((p.lowered_shared h).interchangeable_reuse o)
  · exact hshared

theorem labels_reused (p : Passes) (h : r.Lowered) : (p.reused r).code.labels.Nodup := by
  have hshared := p.lowered_shared h
  unfold reused
  split
  · rw [RoutineCode.labels_reuse]
    exact hshared.labels
  · exact hshared.labels

/-- The stack of a routine still never runs dry after the first two passes. -/
theorem safe_reused (p : Passes) (h : r.Lowered) (args : List Value) (s : Store) :
    Safe o (p.reused r).code (enter (p.reused r) args) s :=
  ((marked_enter r args).safe h.disciplined o s).bisimilar (p.interchangeable_reused h args s)

theorem interchangeable_optimize (p : Passes) (ho : o.Lawful) (h : r.Lowered) :
    Interchangeable o r (p.optimize r) := by
  have hreused := p.interchangeable_reused (o := o) h
  simp only [optimize]
  split
  · exact hreused.trans
      (RoutineCode.interchangeable_simplify ho (p.labels_reused h) (p.safe_reused h))
  · exact hreused

theorem optimize_none : Passes.none.optimize = id := rfl

end Passes

theorem Module.optimize_none (m : Module) : m.optimize .none = m := by
  simp [Module.optimize,Passes.optimize_none]

theorem Module.routine?_optimize (m : Module) (p : Passes) (entry : String) :
    routine? (m.optimize p) entry = (routine? m entry).map p.optimize := by
  unfold routine?
  cases h : m.entryPoints.lookup entry with
  | none => simp [Module.optimize,h]
  | some i => simp [Module.optimize,h]

theorem rel_map_optimize {o : Operations} (ho : o.Lawful) (p : Passes) {r : Option RoutineCode}
    (h : ∀ rc ∈ r, rc.Lowered) : Option.Rel (Interchangeable o) r (r.map p.optimize) := by
  cases r with
  | none => exact .none
  | some rc => exact .some (p.interchangeable_optimize ho (h rc rfl))

theorem Module.sameRoutines_optimize {o : Operations} (ho : o.Lawful) {m : Module}
    (h : ∀ rc ∈ m.routines, rc.Lowered) (p : Passes) : SameRoutines o m (m.optimize p) := by
  intro entry
  rw [Module.routine?_optimize]
  refine rel_map_optimize ho p fun rc hrc => h rc ?_
  obtain ⟨i,_,hi⟩ := Option.bind_eq_some_iff.mp hrc
  exact List.mem_of_getElem? hi

theorem SourceUnit.compile_eq_ok {u : SourceUnit} {options : CompileOptions} {m : Module}
    (h : u.compile options = .ok m) : ∃ m₀, (Lowering.run u (options.caseRule u)).2 = .ok m₀ ∧
      m = m₀.optimize options.passes := by
  unfold SourceUnit.compile at h
  cases hrun : (Lowering.run u (options.caseRule u)).2 with
  | error ds =>
    rw [hrun] at h
    cases h
  | ok m₀ =>
    rw [hrun] at h
    cases h
    exact ⟨m₀,rfl,rfl⟩

/-- A module runs as the one without optimizations: whatever the operators and the library do, from
every routine and store the same calls of the library are seen with the same stores, and the runs end
alike or not at all. -/
theorem SourceUnit.compile_observes_iff {u : SourceUnit} {options : CompileOptions} {m : Module}
    (h : u.compile options = .ok m) :
    ∃ m₀, u.compile { options with passes := .none } = .ok m₀ ∧ m.main = m₀.main ∧
      ∀ (o : Operations), o.Lawful → ∀ (lib : Library) (i : Nat) (args : List Value) (s : Store)
        (seen : List Event × Option Result),
        Observes m₀ o lib (begin m₀ i args s) seen ↔ Observes m o lib (begin m i args s) seen := by
  obtain ⟨m₀,hrun,rfl⟩ := compile_eq_ok h
  have hlowered := Lowering.lowered_of_run hrun
  refine ⟨m₀,?_,rfl,fun o ho lib i args s seen => ?_⟩
  · change (Lowering.run u (options.caseRule u)).2.map _ = _
    rw [hrun]
    exact congrArg Except.ok m₀.optimize_none
  · refine observes_iff (Module.sameRoutines_optimize ho hlowered _) ?_ args s seen
    rw [show (m₀.optimize options.passes).routines[i]? = m₀.routines[i]?.map options.passes.optimize
      from List.getElem?_map]
    exact rel_map_optimize ho _ fun rc hrc => hlowered rc (List.mem_of_getElem? hrc)

/-- A square that is computed twice, and two loops whose limits are not needed together. -/
def squares : SourceUnit :=
  let a : Expr := .ident 1 "A"
  let square : Expr := .binary 1 a .mul a
  let sum : Expr := .binary 2 (.literal 2 (.integer 1)) .add (.literal 2 (.integer 1))
  { name := "SQUARES"
    language := .comal
    globals := ["A","X","Y"].map fun name => { name, base := .integer }
    main := [
      .assign 1 { name := "X" } (.binary 1 square .add sum),
      .assign 2 { name := "Y" } (.binary 2 square .mul (.ident 2 "X")),
      .forTo 3 "A" (.literal 3 (.integer 1)) (.ident 3 "X") none [.print 4 [a]],
      .forTo 5 "A" (.literal 5 (.integer 1)) (.ident 5 "Y") none [.print 6 [a]]] }

def codeLengths (x : Except (List Diagnostic) Module) : Option (List Nat) :=
  x.toOption.map fun m => m.routines.map (·.code.length)

theorem exists_of_codeLengths {x : Except (List Diagnostic) Module} {lengths : List Nat}
    (h : codeLengths x = some lengths) :
    ∃ m, x = .ok m ∧ m.routines.map (·.code.length) = lengths := by
  cases x with
  | error ds => cases h
  | ok m => exact ⟨m,rfl,Option.some.inj h⟩

/-- What can be seen of one routine, seen of it in the module. -/
theorem exists_of_routine {α : Type} {x : Except (List Diagnostic) Module} {i : Nat}
    {view : RoutineCode → α} {a : α}
    (h : (x.toOption.bind fun m => m.routines[i]?.map view) = some a) :
    ∃ m rc, x = .ok m ∧ m.routines[i]? = some rc ∧ view rc = a := by
  cases x with
  | error ds => cases h
  | ok m =>
    obtain ⟨rc,hrc,hview⟩ := Option.map_eq_some_iff.mp h
    exact ⟨m,rc,rfl,hrc,hview⟩

theorem SourceUnit.compile_observes_iff_squares :
    ∃ m₀ m, squares.compile { passes := .none } = .ok m₀ ∧ squares.compile {} = .ok m ∧
      m₀.routines.map (·.code.length) = [51] ∧ m.routines.map (·.code.length) = [49] ∧
      Operations.folding.Lawful ∧ ∀ (lib : Library) (s : Store) (seen : List Event × Option Result),
        Observes m₀ .folding lib (begin m₀ 0 [] s) seen ↔
          Observes m .folding lib (begin m 0 [] s) seen := by
  have hplain : codeLengths (squares.compile { passes := .none }) = some [51] := by decide +kernel
  have hoptimized : codeLengths (squares.compile {}) = some [49] := by decide +kernel
  obtain ⟨m₀,hm₀,hlength₀⟩ := exists_of_codeLengths hplain
  obtain ⟨m,hm,hlength⟩ := exists_of_codeLengths hoptimized
  obtain ⟨m₁,hm₁,_,hsame⟩ := SourceUnit.compile_observes_iff hm
  obtain rfl : m₀ = m₁ := Except.ok.inj (hm₀.symm.trans hm₁)
  exact ⟨m₀,m,hm₀,hm,hlength₀,hlength,Operations.folding_lawful,fun lib s seen =>
    hsame .folding Operations.folding_lawful lib 0 [] s seen⟩

end StackCompiler
