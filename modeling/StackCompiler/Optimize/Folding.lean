import StackCompiler.Literal
import StackCompiler.Operator

/-! Operations on constants.
An operation is carried out only if its result is certain: integers must not leave 64 bits, division
and remainder are left alone where rounding towards zero and rounding down differ, and doubles have
to stay finite. -/
namespace StackCompiler.Folding

def fit? (n : Int) : Option Int64 :=
  if Int64.minValue.toInt ≤ n ∧ n ≤ Int64.maxValue.toInt then some (Int64.ofInt n) else none

/-- A comparison, by whether the left side is equal, less or greater. -/
def compare? (op : BinaryOp) (eq lt gt : Bool) : Option Literal :=
  match op with
  | .eq => some (.boolean eq)
  | .ne => some (.boolean !eq)
  | .lt => some (.boolean lt)
  | .le => some (.boolean (lt || eq))
  | .gt => some (.boolean gt)
  | .ge => some (.boolean (gt || eq))
  | _ => none

/-- A power with an exponent below two to the 32nd. A base of two or more in magnitude leaves 64 bits
within 64 factors. -/
def power? (l r : Int64) : Option Int64 :=
  let base := l.toInt
  let exponent := r.toInt.toNat
  if r < 0 ∨ UInt32.size ≤ exponent then none
  else if base = 0 then fit? (if exponent = 0 then 1 else 0)
  else if base = 1 then fit? 1
  else if base = -1 then fit? (if exponent % 2 = 0 then 1 else -1)
  else if 64 ≤ exponent then none
  else fit? (Int.pow base exponent)

def integer? (op : BinaryOp) (l r : Int64) : Option Literal :=
  match op with
  | .add => (fit? (l.toInt + r.toInt)).map .integer
  | .sub => (fit? (l.toInt - r.toInt)).map .integer
  | .mul => (fit? (l.toInt * r.toInt)).map .integer
  | .div | .intDiv =>
    if 0 ≤ l ∧ 0 < r then (fit? (l.toInt / r.toInt)).map .integer else none
  | .mod => if 0 ≤ l ∧ 0 < r then (fit? (l.toInt % r.toInt)).map .integer else none
  | .pow => (power? l r).map .integer
  | _ => compare? op (l == r) (l < r) (r < l)

def finite? (x : Float) : Option Literal :=
  if x.isFinite then some (.double x) else none

def double? (op : BinaryOp) (l r : Float) : Option Literal :=
  match op with
  | .add => finite? (l + r)
  | .sub => finite? (l - r)
  | .mul => finite? (l * r)
  | .div => if r == 0.0 then none else finite? (l / r)
  | .pow => finite? (l.pow r)
  | _ => compare? op (l == r) (l < r) (r < l)

def char? (op : BinaryOp) (l r : String) : Option Literal :=
  match op with
  | .concat => some (.char (l ++ r))
  | _ => compare? op (l == r) (l < r) (r < l)

def boolean? (op : BinaryOp) (l r : Bool) : Option Literal :=
  match op with
  | .and => some (.boolean (l && r))
  | .or => some (.boolean (l || r))
  | .eq => some (.boolean (l == r))
  | .ne => some (.boolean (l != r))
  | _ => none

def binary? (op : BinaryOp) (operand : BaseType) : Literal → Literal → Option Literal
  | .integer l, .integer r => if operand = .integer then integer? op l r else none
  | .double l, .double r => if operand = .double then double? op l r else none
  | .char l, .char r => if operand = .char then char? op l r else none
  | .boolean l, .boolean r => if operand = .boolean then boolean? op l r else none
  | _, _ => none

def unary? : UnaryOp → Literal → Option Literal
  | .neg, .integer n => (fit? (-n.toInt)).map .integer
  | .neg, .double x => some (.double (-x))
  | .not, .boolean b => some (.boolean !b)
  | _, _ => none

end StackCompiler.Folding
