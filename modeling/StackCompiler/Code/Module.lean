import StackCompiler.Code.Frame
import StackCompiler.Code.Text
import StackCompiler.Symbol

/-! The code of routines and modules. -/
namespace StackCompiler

structure RoutineCode where
  name : String
  params : Nat
  returns : BaseType
  frame : Frame
  code : Code
  deriving DecidableEq

/-- All that is produced for a source unit. `entryPoints` gives each entry name the position of its
routine; `scopes` holds the outermost table, then those of the routines as they were closed. -/
structure Module where
  name : String
  language : Language
  globals : List (String × Ty)
  routines : List RoutineCode
  entryPoints : List (String × Nat)
  main : Nat
  scopes : List SymbolTable

end StackCompiler
