import StackCompiler.Types
import StackCompiler.Decimal.Text
import StackCompiler.Text.Quoted

/-! Constants: 64-bit integers, doubles, strings and truth values. -/
namespace StackCompiler

inductive Literal
  | integer (n : Int64)
  | double (x : Float)
  | char (s : String)
  | boolean (b : Bool)
  deriving DecidableEq

namespace Literal

def base : Literal → BaseType
  | integer _ => .integer
  | double _ => .double
  | char _ => .char
  | boolean _ => .boolean

/-- What a variable of the type holds before anything is stored in it. -/
def zero : BaseType → Option Literal
  | .integer => some (integer 0)
  | .double => some (double 0.0)
  | .char => some (char "")
  | .boolean => some (boolean false)
  | .label | .void => none

def text : Literal → String
  | integer n => toString n.toInt
  | double x => Decimal.text x
  | char s => Text.quoted s
  | boolean true => "TRUE"
  | boolean false => "FALSE"

def toDouble (n : Int64) : Float :=
  if 0 ≤ n then n.toInt.natAbs.toUInt64.toFloat else -n.toInt.natAbs.toUInt64.toFloat

def promote : Literal → Literal
  | integer n => double (toDouble n)
  | l => l

end Literal
end StackCompiler
