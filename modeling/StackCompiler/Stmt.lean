import StackCompiler.Expr

/-! Statements of source programs, each with its line, and the declarations among them. -/
namespace StackCompiler

inductive SymbolClass
  | variable | constant | function | parameter | label
  deriving DecidableEq

def SymbolClass.text : SymbolClass → String
  | .variable => "variable"
  | .constant => "constant"
  | .function => "routine"
  | .parameter => "parameter"
  | .label => "label"

/-- Declares a variable, an array or a named constant; `extents` are the sizes of the dynamic
dimensions in order. -/
structure Declaration where
  name : String
  base : BaseType
  cls : SymbolClass := .variable
  dimensions : List Extent := []
  value : Option Literal := none
  extents : List Expr := []
  line : Line := noLine

def Declaration.type (d : Declaration) : Ty := ⟨d.base,d.dimensions⟩

structure Target where
  name : String
  indices : List Expr := []

inductive Stmt
  | declare (line : Line) (decl : Declaration)
  /-- Makes names of the enclosing scopes visible inside a closed routine. -/
  | share (line : Line) (names : List String)
  | assign (line : Line) (target : Target) (value : Expr)
  | call (line : Line) (name : String) (args : List Expr)
  | ifElse (line : Line) (cond : Expr) (yes no : List Stmt)
  | whileDo (line : Line) (cond : Expr) (body : List Stmt)
  | repeatUntil (line : Line) (body : List Stmt) (cond : Expr)
  | forTo (line : Line) (var : String) (first last : Expr) (step : Option Expr) (body : List Stmt)
  | label (line : Line) (name : String)
  | goto (line : Line) (name : String)
  | ret (line : Line) (value : Option Expr)
  | print (line : Line) (values : List Expr)
  | stop (line : Line)

namespace Stmt

def line : Stmt → Line
  | declare line _ | share line _ | assign line .. | call line .. | ifElse line .. | whileDo line ..
  | repeatUntil line .. | forTo line .. | label line _ | goto line _ | ret line _ | print line _
  | stop line => line

def children : Stmt → List Stmt
  | ifElse _ _ yes no => yes ++ no
  | whileDo _ _ body | repeatUntil _ body _ | forTo _ _ _ _ _ body => body
  | _ => []

mutual

/-- The statement and all statements inside it, in source order. -/
def flatten : Stmt → List Stmt
  | s@(ifElse _ _ yes no) => s :: (flattenAll yes ++ flattenAll no)
  | s@(whileDo _ _ body) => s :: flattenAll body
  | s@(repeatUntil _ body _) => s :: flattenAll body
  | s@(forTo _ _ _ _ _ body) => s :: flattenAll body
  | s => [s]

def flattenAll : List Stmt → List Stmt
  | [] => []
  | s :: rest => s.flatten ++ flattenAll rest

end

end Stmt
end StackCompiler
