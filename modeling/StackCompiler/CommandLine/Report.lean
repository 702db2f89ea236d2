import StackCompiler.Diagnostic

/-! Reports on failed compilations. -/
namespace StackCompiler

structure Style where
  color : Nat
  bold : Bool := false

namespace Style

def reset : String := "\x1b[0m"

def code (s : Style) : String :=
  if s.bold then s!"\x1b[1;{s.color}m" else s!"\x1b[{s.color}m"

/-- A text in the style, which is set again after every reset inside the text. -/
def apply (s : Style) (text : String) : String :=
  s.code ++ (reset ++ s.code).intercalate (text.splitOn reset) ++ reset

def red : Style := { color := 31, bold := true }
def strong : Style := { color := 37, bold := true }
def blue : Style := { color := 34 }
def white : Style := { color := 37 }

end Style

/-- Why there is no listing: the unit is wrong, or the system refused something. -/
inductive Failure
  | diagnostics (ds : List Diagnostic)
  | system (message : String)

namespace Failure

def summary : Failure → String
  | diagnostics ds => Diagnostic.summary ds.length
  | system message => message

def diagnosticLines (colored : Bool) (file : String) (d : Diagnostic) : List String :=
  let paint (s : Style) (text : String) := if colored then s.apply text else text
  let first := paint .red "error" ++ ": " ++ paint .strong d.cause.message
  if d.line = noLine then [first]
  else
    let place := paint .blue "|" ++ "  " ++ paint .blue "-->" ++ " in " ++ paint .white file
    [first,place ++ s!":{d.line.toInt}"]

def lines (colored : Bool) (file : String) : Failure → List String
  | f@(diagnostics ds) => ds.flatMap (diagnosticLines colored file) ++ [f.summary]
  | f@(system _) => ["polyback: " ++ f.summary]

end Failure

/-- Whether reports are coloured. The variables are those that force colours, forbid them, and
switch them off on a terminal; the value "0" counts as no. -/
def wantsColor (force forbid terminal : Option String) (isTerminal : Bool) : Bool :=
  if force.any (· ≠ "0") then true
  else if forbid.isSome then false
  else terminal.all (· ≠ "0") && isTerminal

end StackCompiler
