import StackCompiler.Code.Module

/-! Listings: the text of a module. -/
namespace StackCompiler

namespace Listing

def unknownCall? (m : Module) : Option String :=
  (m.routines.flatMap (·.code)).findSome? fun
    | .call (.routine entry) _ _ => if m.entryPoints.any (·.1 == entry) then none else some entry
    | _ => none

def header (r : RoutineCode) (isMain : Bool) : String :=
  let role := if isMain then "main, " else ""
  s!"{r.name}: ; {role}{r.params} params, returns {r.returns.text}, {r.frame.length} slots"

def routine (frames : Bool) (r : RoutineCode) (isMain : Bool) : List String :=
  ["",header r isMain] ++ (if frames then r.frame.map ("\t; " ++ ·.text) else []) ++
    r.code.map Instr.text

def lines (frames : Bool) (m : Module) : List String :=
  s!"; {m.name} ({m.language.text})" :: m.globals.map (fun g => s!"@{g.1}: {g.2.text}") ++
    m.routines.zipIdx.flatMap fun p => routine frames p.1 (p.2 == m.main)

end Listing

/-- The listing, with the slots of every frame if wanted. Every call of a routine has to find it. -/
def Module.listing (m : Module) (frames : Bool := false) : Except Diagnostic String :=
  match Listing.unknownCall? m with
  | some entry => .error (.internal (.unresolvedSymbol entry))
  | none => .ok ("\n".intercalate (Listing.lines frames m))

end StackCompiler
