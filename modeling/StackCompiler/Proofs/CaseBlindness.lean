import StackCompiler.Proofs.TwinUnits

/-! Spelling does not matter where case does not.
Two units that become equal when all their names are written in capitals compile to the same code, or
fail with diagnostics of the same kinds at the same lines. Each of them is compared with the unit in
capitals. -/
namespace StackCompiler

theorem RoutineCode.relabel_eq_self {f : Label → Label} (h : ∀ l, f l = l) (r : RoutineCode) :
    r.relabel f = r := by
  rw [relabel,Code.relabel_eq_self fun _ _ l _ => h l]

/-- Both units compile, to the same code, or both fail with diagnostics of the same kinds at the same
lines. -/
inductive SameOutcome : Except (List Diagnostic) Module → Except (List Diagnostic) Module → Prop
  | ok {m n : Module} (routines : n.routines = m.routines) (entryPoints : n.entryPoints = m.entryPoints)
    (globals : n.globals = m.globals) (main : n.main = m.main) : SameOutcome (.ok m) (.ok n)
  | error {ds es : List Diagnostic} (h : es.map Diagnostic.gist = ds.map Diagnostic.gist) :
    SameOutcome (.error ds) (.error es)

namespace SameOutcome

variable {x y z : Except (List Diagnostic) Module}

theorem symm (h : SameOutcome x y) : SameOutcome y x := by
  cases h with
  | ok routines entryPoints globals main =>
    exact .ok routines.symm entryPoints.symm globals.symm main.symm
  | error h => exact .error h.symm

theorem trans (h : SameOutcome x y) (h' : SameOutcome y z) : SameOutcome x z := by
  cases h with
  | ok routines entryPoints globals main =>
    cases h' with
    | ok routines' entryPoints' globals' main' =>
      exact .ok (routines'.trans routines) (entryPoints'.trans entryPoints) (globals'.trans globals)
        (main'.trans main)
  | error h =>
    cases h' with
    | error h' => exact .error (h'.trans h)

end SameOutcome

namespace Lowering

def capitals : Pairing where
  rule := false
  spell := Text.upper
  shift := 0
  keeps := Text.upper_upper

theorem twin_initial (u : SourceUnit) :
    (Progress.initial u false).Twin capitals [] [] (.initial (u.respell Text.upper) false) :=
  ⟨⟨.nil,⟨⟨rfl,rfl,fun _ => rfl,rfl⟩,rfl,rfl⟩,rfl⟩,rfl,rfl,⟨rfl,rfl⟩,[],[],rfl,rfl,rfl,fun _ => rfl⟩

/-- Without diagnostics the routines are the same, if no label has another number. -/
theorem Progress.Twin.routines_eq {c : Pairing} {p q : Progress} (h : p.Twin c [] [] q)
    (hshift : c.shift = 0) (he : p.errors = []) : q.routines = p.routines := by
  obtain ⟨added,added',hp,hq,_,hsame⟩ := h.routines
  have hnumber : ∀ l, c.number l = l := by
    intro l
    rw [Pairing.number,hshift,Nat.add_zero]
  rw [hp,hq,hsame he,List.nil_append,List.nil_append]
  exact List.map_id'' (RoutineCode.relabel_eq_self hnumber) added

theorem sameOutcome_run (u : SourceUnit) (passes : Passes) :
    SameOutcome ((run u false).2.map (·.optimize passes))
      ((run (u.respell Text.upper) false).2.map (·.optimize passes)) := by
  obtain ⟨p,hp,_,hrun⟩ := exists_run u false
  obtain ⟨q,hq,_,hrun'⟩ := exists_run (u.respell Text.upper) false
  have h : p.Twin capitals [] [] q := twin_sourceUnit (twin_initial u) hp hq
  rw [hrun,hrun']
  by_cases he : p.errors = []
  · have hroutines := h.routines_eq rfl he
    have hglobals : globals q.scopes.global = globals p.scopes.global := h.scopes.outermost.table.globals
    rw [he,h.errors_nil.mpr he]
    refine .ok ?_ ?_ hglobals rfl
    · change q.routines.map _ = p.routines.map _
      rw [hroutines]
    · change q.entryPoints = p.entryPoints
      rw [h.listed.2,h.listed.1,hroutines]
  · have he' : q.errors ≠ [] := fun hnil => he (h.errors_nil.mp hnil)
    rw [if_neg (by simpa using he),if_neg (by simpa using he')]
    exact .error h.errors

end Lowering

/-- Where case does not matter, units whose names differ in case only compile to the same routines under
the same entry names, with the same variables and the same main program. If one of them does not compile
neither does the other, and their diagnostics are of the same kinds at the same lines. -/
theorem SourceUnit.compile_case_blind {u v : SourceUnit} {o : CompileOptions}
    (hrule : o.caseRule u = false) (h : u.respell Text.upper = v.respell Text.upper) :
    SameOutcome (u.compile o) (v.compile o) := by
  have hlanguage : (u.respell Text.upper).language = (v.respell Text.upper).language := by rw [h]
  have hrule' : o.caseRule v = false := by
    rw [← hrule]
    exact congrArg o.caseSensitive.getD (congrArg Language.caseSensitive hlanguage.symm)
  have hu := Lowering.sameOutcome_run u o.passes
  have hv := Lowering.sameOutcome_run v o.passes
  unfold compile
  rw [hrule,hrule']
  rw [h] at hu
  exact hu.trans hv.symm

/-- A program that counts up a variable by a function; each name is declared in one spelling and used in
another. -/
def street (unit road road' next next' : String) : SourceUnit :=
  { name := unit
    language := .fortran
    main := [
      .declare 1 { name := road, base := .integer },
      .label 2 unit,
      .assign 3 { name := road' } (.call 3 next' [.ident 3 road]),
      .ifElse 4 (.binary 4 (.ident 4 road') .lt (.literal 4 (.integer 9))) [.goto 5 unit] []]
    routines := [
      { name := next
        params := [{ name := road', base := .integer }]
        returns := .integer
        body := [.assign 7 { name := next' } (.binary 7 (.ident 7 road) .add (.literal 7 (.integer 1)))]
        line := 6 }] }

/-- Two spellings of a program that compiles, one with a letter that becomes two capitals, and of one
that does not compile. -/
theorem SourceUnit.compile_case_blind_street :
    (∃ m n, (street "Walk" "Straße" "strasse" "Next" "NEXT").compile {} = .ok m ∧
      (street "WALK" "STRASSE" "straße" "next" "nexT").compile {} = .ok n ∧
      m.routines.map (fun r => (r.name,r.frame.flatMap SlotInfo.names)) =
        [("WALK",[]),("NEXT",["STRASSE","NEXT"])] ∧
      n.routines = m.routines ∧ n.globals = m.globals) ∧
    ∃ ds es, (street "Walk" "Road" "street" "Next" "NEXT").compile {} = .error ds ∧
      (street "WALK" "ROAD" "STREET" "next" "next").compile {} = .error es ∧
      es.map Diagnostic.gist = ds.map Diagnostic.gist ∧ ds.map Diagnostic.line = [3,4] := by
  have hcapitals : ∀ unit road road' next next' : String,
      (street unit road road' next next').respell Text.upper =
        street (Text.upper unit) (Text.upper road) (Text.upper road') (Text.upper next)
          (Text.upper next') := fun _ _ _ _ _ => rfl
  have hwords : Text.upper "Walk" = Text.upper "WALK" ∧ Text.upper "Straße" = Text.upper "STRASSE" ∧
      Text.upper "strasse" = Text.upper "straße" ∧ Text.upper "Next" = Text.upper "next" ∧
      Text.upper "NEXT" = Text.upper "nexT" ∧ Text.upper "Road" = Text.upper "ROAD" ∧
      Text.upper "street" = Text.upper "STREET" ∧ Text.upper "NEXT" = Text.upper "next" := by
    decide +kernel
  obtain ⟨hwalk,hroad,hroad',hnext,hnext',hway,hway',hcall⟩ := hwords
  constructor
  · have hsame := SourceUnit.compile_case_blind
      (u := street "Walk" "Straße" "strasse" "Next" "NEXT")
      (v := street "WALK" "STRASSE" "straße" "next" "nexT") (o := {}) rfl
      (by rw [hcapitals,hcapitals,hwalk,hroad,hroad',hnext,hnext'])
    have hroutines : (match (street "Walk" "Straße" "strasse" "Next" "NEXT").compile {} with
        | .ok m => m.routines.map fun r => (r.name,r.frame.flatMap SlotInfo.names)
        | .error _ => []) = [("WALK",[]),("NEXT",["STRASSE","NEXT"])] := by decide +kernel
    generalize (street "Walk" "Straße" "strasse" "Next" "NEXT").compile {} = x,
      (street "WALK" "STRASSE" "straße" "next" "nexT").compile {} = y at hsame hroutines
    cases hsame with
    | @ok m n routines entryPoints globals main =>
      exact ⟨m,n,rfl,rfl,hroutines,routines,globals⟩
    | error h => cases hroutines
  · have hsame := SourceUnit.compile_case_blind
      (u := street "Walk" "Road" "street" "Next" "NEXT")
      (v := street "WALK" "ROAD" "STREET" "next" "next") (o := {}) rfl
      (by rw [hcapitals,hcapitals,hwalk,hway,hway',hnext,hcall])
    have hlines : (diagnostics ((street "Walk" "Road" "street" "Next" "NEXT").compile {})).map
        Diagnostic.line = [3,4] := by decide +kernel
    generalize (street "Walk" "Road" "street" "Next" "NEXT").compile {} = x,
      (street "WALK" "ROAD" "STREET" "next" "next").compile {} = y at hsame hlines
    cases hsame with
    | ok => cases hlines
    | @error ds es h => exact ⟨ds,es,rfl,rfl,h,hlines⟩

end StackCompiler
