import StackCompiler.Stmt

/-! What can be wrong with a source unit, and how it is told. -/
namespace StackCompiler

inductive Cause
  | duplicateSymbol (name scope : String)
  | undefinedImport (name : String)
  | scopeMismatch (detail : String)
  | unresolvedSymbol (name : String)
  | typeMismatch (expected found : Ty)
  | invalidOperands (op : String) (left right : Ty)
  | invalidOperand (op : String) (operand : Ty)
  | arity (name : String) (expected found : Nat)
  | argumentType (position : Nat) (name : String) (expected found : Ty)
  | notAssignable (name : String) (cls : SymbolClass)
  | notCallable (name : String) (cls : SymbolClass)
  | notAValue (name : String) (cls : SymbolClass)
  | voidValue (name : String)
  | arrayDimension (detail : String)
  | unsupportedConstruct (detail : String)
  | undefinedLabel (label : Nat) (routine : String)
  deriving DecidableEq

def plural (n : Nat) : String := if n = 1 then "" else "s"

def ordinal (n : Nat) : String :=
  let suffix :=
    if n % 10 = 1 && n % 100 != 11 then "st"
    else if n % 10 = 2 && n % 100 != 12 then "nd"
    else if n % 10 = 3 && n % 100 != 13 then "rd"
    else "th"
  toString n ++ suffix

namespace Cause

def message : Cause → String
  | duplicateSymbol name scope => s!"redefinition of '{name}' in scope '{scope}'"
  | undefinedImport name => s!"cannot import '{name}', it is not declared in any enclosing scope"
  | scopeMismatch detail => s!"scope mismatch: {detail}"
  | unresolvedSymbol name => s!"undeclared symbol '{name}'"
  | typeMismatch expected found =>
    s!"mismatched types: expected '{expected.text}', found '{found.text}'"
  | invalidOperands op left right => s!"invalid operands to '{op}': '{left.text}' and '{right.text}'"
  | invalidOperand op operand => s!"invalid operand to '{op}': '{operand.text}'"
  | arity name expected found =>
    s!"routine '{name}' expects {expected} argument{plural expected}, found {found}"
  | argumentType position name expected found =>
    s!"{ordinal position} argument of '{name}' has to be '{expected.text}', found '{found.text}'"
  | notAssignable name cls => s!"cannot assign to {cls.text} '{name}'"
  | notCallable name cls => s!"{cls.text} '{name}' cannot be called"
  | notAValue name cls => s!"{cls.text} '{name}' cannot be used as a value"
  | voidValue name => s!"procedure '{name}' does not return a value"
  | arrayDimension detail => detail
  | unsupportedConstruct detail => s!"unsupported construct: {detail}"
  | undefinedLabel label routine => s!"branch to undefined label {label} in routine '{routine}'"

/-- After a fatal cause no more code is produced; any other is recorded and the next statement is
taken up. -/
def isFatal : Cause → Bool
  | scopeMismatch _ | undefinedLabel .. => true
  | _ => false

end Cause

structure Diagnostic where
  line : Line
  cause : Cause
  deriving DecidableEq

namespace Diagnostic

def internal (cause : Cause) : Diagnostic := ⟨noLine,cause⟩

def isFatal (d : Diagnostic) : Bool := d.cause.isFatal

def text (d : Diagnostic) : String :=
  if d.line = noLine then d.cause.message else s!"line {d.line.toInt}: {d.cause.message}"

def summary (n : Nat) : String := s!"{n} error{plural n} generated."

end Diagnostic

def Ty.validate (t : Ty) (name : String) : Except Cause Unit :=
  if t.isScalar then .ok ()
  else if !t.base.isStorable then
    .error (.arrayDimension s!"array '{name}' cannot have element type '{t.base.text}'")
  else if maxRank < t.rank then
    .error (.arrayDimension
      s!"array '{name}' has {t.rank} dimensions, at most {maxRank} are allowed")
  else
    match t.dimensions.findIdx? (· == .fixed 0) with
    | some i =>
      .error (.arrayDimension s!"dimension {i + 1} of array '{name}' has to be greater than zero")
    | none =>
      if t.isDynamic && maxDynamicRank < t.rank then
        .error (.arrayDimension
          s!"array '{name}' has {t.rank} dimensions, dynamic extents are only supported up to {maxDynamicRank}")
      else .ok ()

end StackCompiler
