/-! Reading decimals as doubles.
The leading digits that fit into 64 bits form the significand, the digits left out only move the
exponent. The significand, rounded to a double, is then multiplied or divided once by the double
nearest to the power of ten; below the smallest power it is first divided by `1e308`. -/
namespace StackCompiler.Decimal

structure Scaled where
  significand : UInt64
  exponent : Int

namespace Scaled

def zero : Scaled := ⟨0,0⟩

/-- The significand with one more digit, unless it would leave 64 bits. -/
def extended? (x : Scaled) (digit : Nat) : Option UInt64 :=
  let n := x.significand.toNat * 10 + digit
  if n < UInt64.size then some n.toUInt64 else none

/-- Digits before the point: once one does not fit, it and all later ones count as a power of
ten. -/
def whole (x : Scaled) : List Nat → Scaled
  | [] => x
  | d :: rest =>
    match x.extended? d with
    | some n => whole ⟨n,x.exponent⟩ rest
    | none => ⟨x.significand,x.exponent + (d :: rest).length⟩

/-- Digits after the point: once one does not fit, it and all later ones are dropped. -/
def fraction (x : Scaled) : List Nat → Scaled
  | [] => x
  | d :: rest =>
    match x.extended? d with
    | some n => fraction ⟨n,x.exponent - 1⟩ rest
    | none => x

def shift (x : Scaled) (e : Int) : Scaled :=
  ⟨x.significand,x.exponent + e⟩

def maxPower : Nat := 308

def power (n : Nat) : Float :=
  Float.ofScientific 1 false n

/-- Divides by `10 ^ n` in steps of `1e308`; three steps bring every significand to zero. -/
def divided (x : Float) (n : Nat) : Nat → Float
  | 0 => 0.0
  | steps + 1 =>
    if n ≤ maxPower then x / power n
    else if x == 0.0 then x
    else divided (x / power maxPower) (n - maxPower) steps

def toFloat? (x : Scaled) : Option Float :=
  let f := x.significand.toFloat
  if 0 ≤ x.exponent then
    if x.significand == 0 then some f
    else if x.exponent ≤ (maxPower : Int) then
      let y := f * power x.exponent.toNat
      if y.isInf then none else some y
    else none
  else some (divided f (-x.exponent).toNat 4)

end Scaled
end StackCompiler.Decimal
