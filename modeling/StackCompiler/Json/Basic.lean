import StackCompiler.Decimal.Scaled

/-! JSON values as they are written: numbers keep their digits, objects keep the order and the
repetitions of their members. -/
namespace StackCompiler

/-- A number token: sign, digits before the point, digits after it, exponent. -/
structure Json.Number where
  negative : Bool
  whole : List Nat
  fraction : Option (List Nat) := none
  exponent : Option Int := none
  deriving DecidableEq

/-- The content of a string token; `none` if it escapes half of a surrogate pair, which no text
holds. -/
abbrev Json.Text := Option String

inductive Json
  | null
  | bool (b : Bool)
  | number (n : Json.Number)
  | string (s : Json.Text)
  | array (items : List Json)
  | object (members : List (Json.Text × Json))

namespace Json

namespace Number

def ofDigits (digits : List Nat) : Nat :=
  digits.foldl (fun n d => 10 * n + d) 0

def digits (n : Nat) : List Nat :=
  (Nat.toDigits 10 n).map fun c => c.toNat - '0'.toNat

def ofInt (n : Int) : Number :=
  { negative := n < 0, whole := digits n.natAbs }

/-- The value of a token without fraction and exponent; minus zero is not an integer. -/
def toInt? (x : Number) : Option Int :=
  if x.fraction.isSome || x.exponent.isSome then none
  else
    let n := ofDigits x.whole
    if x.negative then (if n = 0 then none else some (-(n : Int))) else some n

def toFloat? (x : Number) : Option Float :=
  let digits := (Decimal.Scaled.zero.whole x.whole).fraction (x.fraction.getD [])
  ((digits.shift (x.exponent.getD 0)).toFloat?).map fun f => if x.negative then -f else f

end Number

def str (s : String) : Json := string (some s)

def int (n : Int) : Json := number (.ofInt n)

def nat (n : Nat) : Json := int n

def record (members : List (String × Json)) : Json :=
  object (members.map fun m => (some m.1,m.2))

def option {α : Type} (write : α → Json) : Option α → Json
  | none => null
  | some a => write a

def list {α : Type} (write : α → Json) (items : List α) : Json :=
  array (items.map write)

end Json
end StackCompiler
