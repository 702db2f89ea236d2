import StackCompiler.Stmt

/-! Source units: all that a front end hands over for one source file. -/
namespace StackCompiler

/-- What a routine's scope sees of the scopes around it: everything, or only shared names. -/
inductive Discipline
  | opened | closed
  deriving DecidableEq

/-- Whether routines may be nested. -/
inductive Scoping
  | flat | nested
  deriving DecidableEq

inductive Language
  | fortran | comal
  deriving DecidableEq

namespace Language

def text : Language → String
  | fortran => "Fortran"
  | comal => "Comal"

def caseSensitive : Language → Bool
  | fortran => false
  | comal => true

def scoping : Language → Scoping
  | fortran => .flat
  | comal => .nested

end Language

structure Param where
  name : String
  base : BaseType
  dimensions : List Extent := []
  line : Line := noLine

def Param.type (p : Param) : Ty := ⟨p.base,p.dimensions⟩

/-- A function, or a procedure if it returns nothing. -/
structure Routine where
  name : String
  discipline : Discipline := .opened
  params : List Param := []
  returns : BaseType := .void
  body : List Stmt
  routines : List Routine := []
  line : Line := noLine

structure SourceUnit where
  name : String
  language : Language
  globals : List Declaration := []
  main : List Stmt := []
  routines : List Routine := []

end StackCompiler
