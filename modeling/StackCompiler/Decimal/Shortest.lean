/-! The shortest decimal that reads back to a given binary fraction.
A positive double is `m * 2 ^ q`. The reals that round to it form an interval around it, closed
when `m` is even. On the coarsest decimal grid that has a point in the interval, the point nearest
to the value is taken, the upper one on a tie. All comparisons are exact, in `Nat`. -/
namespace StackCompiler.Decimal

/-- A positive binary fraction `m * 2 ^ q`; `narrow` says that the neighbour below is closer than
the neighbour above, which happens at powers of two. -/
structure Binary where
  m : Nat
  q : Int
  narrow : Bool

/-- The magnitude of a finite double, by its exponent and fraction fields. -/
def Binary.ofBits (bits : UInt64) : Binary :=
  let fraction : Nat := bits.toNat % (1 <<< 52)
  let exponent : Nat := (bits.toNat >>> 52) % (1 <<< 11)
  if exponent = 0 then ⟨fraction,-1074,false⟩
  else ⟨(1 <<< 52) + fraction,(exponent : Int) - 1075,fraction == 0 && 1 < exponent⟩

/-- Comparing `c * 10 ^ g` with `b * 2 ^ (q - 2)` is comparing `c * point` with `b * quarter`. -/
structure Scale where
  point : Nat
  quarter : Nat

def Binary.scale (x : Binary) (g : Int) : Scale :=
  let s := x.q - 2
  { point := Nat.pow 10 g.toNat <<< (-s).toNat, quarter := Nat.pow 10 (-g).toNat <<< s.toNat }

/-- Whether the grid point `c * 10 ^ g` rounds to the fraction. -/
def Binary.accepts (x : Binary) (k : Scale) (c : Nat) : Bool :=
  let low := (4 * x.m - if x.narrow then 1 else 2) * k.quarter
  let high := (4 * x.m + 2) * k.quarter
  let y := c * k.point
  if x.m % 2 = 0 then low ≤ y && y ≤ high else low < y && y < high

/-- The grid point nearest to the fraction among the two around it, if one of them is accepted. -/
def Binary.onGrid (x : Binary) (g : Int) : Option Nat :=
  let k := x.scale g
  let value := 4 * x.m * k.quarter
  let below := value / k.point
  match x.accepts k below, x.accepts k (below + 1) with
  | true, true =>
    if value - below * k.point < (below + 1) * k.point - value then some below
    else some (below + 1)
  | true, false => some below
  | false, true => some (below + 1)
  | false, false => none

def Binary.ceiling (x : Binary) : Int :=
  ((Nat.log2 x.m : Int) + x.q + 1) * 30103 / 100000 + 2

/-- Digits `c` and exponent `g` of the shortest decimal `c * 10 ^ g`: seventeen digits always
suffice, so the search from the coarse end stops within twenty-two grids. -/
def Binary.shortest (x : Binary) : Nat × Int :=
  let grids := (List.range 22).map fun (i : Nat) => x.ceiling - (i : Int)
  (grids.findSome? fun g => (x.onGrid g).map (·,g)).getD (0,0)

end StackCompiler.Decimal
