import StackCompiler.Symbol

/-! Which types may meet in assignments, calls and operations, and where an integer has to become a
double. -/
namespace StackCompiler

/-- What happens to a value before it is used. -/
inductive Coercion
  | keep
  | toDouble
  deriving DecidableEq

/-- A checked binary operation: the operator of the machine, the base type both operands have by
then, the base type of the result, and what happens to the operands. -/
structure BinaryTyping where
  op : BinaryOp
  operand : BaseType
  result : BaseType
  left : Coercion
  right : Coercion
  deriving DecidableEq

namespace Typing

/-- The first dimension in which two arrays have different fixed extents: its number, what was
found and what was expected. -/
def extentClash : Nat → List Extent → List Extent → Option (Nat × UInt64 × UInt64)
  | i, .fixed expected :: ts, .fixed found :: vs =>
    if expected = found then extentClash (i + 1) ts vs else some (i,found,expected)
  | i, _ :: ts, _ :: vs => extentClash (i + 1) ts vs
  | _, _, _ => none

def assign (target value : Ty) (line : Line) : Except Diagnostic Coercion :=
  let mismatch := .error ⟨line,.typeMismatch target value⟩
  if !target.base.isStorable || !value.base.isStorable then mismatch
  else if target.isArray && value.isArray then
    if target.rank ≠ value.rank then
      .error ⟨line,.arrayDimension
        s!"cannot use array '{value.text}' of rank {value.rank} where rank {target.rank} is expected"⟩
    else
      match extentClash 1 target.dimensions value.dimensions with
      | some (i,found,expected) =>
        .error ⟨line,.arrayDimension
          s!"dimension {i} has extent {found.toNat}, expected {expected.toNat}"⟩
      | none => if target.base = value.base then .ok .keep else mismatch
  else if target.isScalar && value.isScalar then
    if target.base = value.base then .ok .keep
    else if target.base = .double && value.base = .integer then .ok .toDouble
    else mismatch
  else mismatch

def arguments (routine : Symbol) (line : Line) :
    Nat → List Ty → List Ty → Except Diagnostic (List Coercion)
  | i, param :: params, arg :: args =>
    match assign param arg line with
    | .error _ => .error ⟨line,.argumentType i routine.name param arg⟩
    | .ok coercion => (arguments routine line (i + 1) params args).map (coercion :: ·)
  | _, _, _ => .ok []

def call (routine : Symbol) (args : List Ty) (line : Line) : Except Diagnostic (List Coercion) :=
  if !routine.isRoutine then .error ⟨line,.notCallable routine.name routine.cls⟩
  else if routine.params.length ≠ args.length then
    .error ⟨line,.arity routine.name routine.params.length args.length⟩
  else arguments routine line 1 routine.params args

/-- Two numbers meet as integers only if both are. -/
def commonNumeric (left right : BaseType) : Option BaseType :=
  if left = .integer && right = .integer then some .integer
  else if left.isNumeric && right.isNumeric then some .double
  else none

def promotion (source target : BaseType) : Coercion :=
  if source = .integer && target = .double then .toDouble else .keep

def select (language : Language) (op : BinaryOp) (left right : BaseType) :
    Option (BinaryOp × BaseType) :=
  let numeric := commonNumeric left right
  let both (b : BaseType) : Bool := left = b && right = b
  match op with
  | .add =>
    if language = .comal && both .char then some (.concat,.char) else numeric.map (op,·)
  | .sub | .mul | .pow => numeric.map (op,·)
  | .div =>
    numeric.map fun n => (op,if n = .integer && language = .fortran then .integer else .double)
  | .intDiv | .mod => if both .integer then some (op,.integer) else none
  | .concat => if both .char then some (op,.char) else none
  | .eq | .ne =>
    if both .char then some (op,.char)
    else if both .boolean then some (op,.boolean)
    else numeric.map (op,·)
  | .lt | .le | .gt | .ge => if both .char then some (op,.char) else numeric.map (op,·)
  | .and | .or => if both .boolean then some (op,.boolean) else none

def binary (language : Language) (op : BinaryOp) (left right : Ty) (line : Line) :
    Except Diagnostic BinaryTyping :=
  let selected :=
    if left.isArray || right.isArray then none else select language op left.base right.base
  match selected with
  | none => .error ⟨line,.invalidOperands op.symbol left right⟩
  | some (op,operand) =>
    .ok { op, operand, result := op.result operand, left := promotion left.base operand,
          right := promotion right.base operand }

def unary (op : UnaryOp) (operand : Ty) (line : Line) : Except Diagnostic BaseType :=
  let fits : Bool := match op with
    | .neg => operand.isNumeric
    | .not => operand.isScalar && operand.base == .boolean
  if fits then .ok operand.base else .error ⟨line,.invalidOperand op.symbol operand⟩

def expect (base : BaseType) (t : Ty) (line : Line) : Except Diagnostic Unit :=
  if t = .scalar base then .ok () else .error ⟨line,.typeMismatch (.scalar base) t⟩

def condition (t : Ty) (line : Line) : Except Diagnostic Unit := expect .boolean t line

def subscript (t : Ty) (line : Line) : Except Diagnostic Unit := expect .integer t line

end Typing
end StackCompiler
