import StackCompiler.Lowering.State

/-! Code of expressions.
Operands, subscripts and arguments are evaluated from left to right; an integer becomes a double
right after it has been computed. -/
namespace StackCompiler.Lowering

open Lower

/-- Where a resolved variable lives: the outermost scope is global, the routine's own scope is its
frame, and scopes in between cannot be reached. -/
def place (r : Routine) (found : Symbol × Nat) (line : Line) : Lower Place :=
  let (symbol,depth) := found
  if depth = 0 then pure (.global symbol.key)
  else if depth = r.depth then do
    let slot ← localSlot symbol.key symbol.type
    pure (.slot slot)
  else
    fail line (.unsupportedConstruct
      s!"'{symbol.name}' belongs to an enclosing routine and cannot be accessed from '{r.entry}'")

def resultSlot (r : Routine) : Lower (Option Slot) :=
  match r.resultName with
  | none => pure none
  | some name => do
    let slot ← localSlot name (.scalar r.returns)
    pure (some slot)

def coerce (target value : Ty) (line : Line) : Lower Code := do
  let coercion ← lift (Typing.assign target value line)
  pure coercion.code

def isIntrinsic (r : Routine) (name : String) : Lower Bool := do
  let s ← get
  pure ((s.scopes.resolve name).isNone && (Intrinsic.find? r.language name).isSome)

def callee (r : Routine) (name : String) (line : Line) : Lower (CallTarget × Symbol) := do
  let s ← get
  match s.scopes.resolveRoutine name with
  | some found =>
    set { s with scopes := s.scopes.touch found line }
    let symbol := found.1
    if symbol.isRoutine then pure (.routine (symbol.entry.getD symbol.key),symbol)
    else fail line (.notCallable name symbol.cls)
  | none =>
    match Intrinsic.find? r.language name with
    | some intrinsic => pure (.runtime intrinsic.runtime,intrinsic.symbol line)
    | none => fail line (.unresolvedSymbol name)

def argumentCode (args : List Value) (coercions : List Coercion) : Code :=
  ((args.zip coercions).map fun p => p.1.code ++ p.2.code).flatten

/-- A call with the given arguments: its code, and the type of its result if it has one. -/
def call (r : Routine) (name : String) (line : Line) (args : Lower (List Value)) :
    Lower (Code × Option Ty) := do
  let (target,signature) ← callee r name line
  let args ← args
  let coercions ← lift (Typing.call signature (args.map Value.type) line)
  let returns := !signature.type.isVoid
  pure (argumentCode args coercions ++ [.call target args.length returns],
    if returns then some signature.type else none)

def callValue (r : Routine) (name : String) (line : Line) (args : Lower (List Value)) :
    Lower Value := do
  match ← call r name line args with
  | (code,some type) => pure ⟨code,type⟩
  | (_,none) => fail line (.voidValue name)

/-- A name used as a value: a constant, a variable, the result under assignment, or a call without
arguments. -/
def ident (r : Routine) (name : String) (line : Line) : Lower Value := do
  if ← isIntrinsic r name then callValue r name line (pure [])
  else
    let (symbol,depth) ← resolve name line
    match symbol.cls with
    | .constant =>
      match symbol.value with
      | some value => pure ⟨[.const value],symbol.type⟩
      | none => fail line (.notAValue name symbol.cls)
    | .variable | .parameter =>
      let p ← place r (symbol,depth) line
      pure ⟨[.load p],symbol.type⟩
    | .function =>
      if r.resultName = some symbol.key then
        let slot ← resultSlot r
        pure ⟨slot.toList.map fun n => .load (.slot n),symbol.type⟩
      else callValue r name line (pure [])
    | .label => fail line (.notAValue name symbol.cls)

def arrayPlace (r : Routine) (found : Symbol × Nat) (subscripts : Nat) (line : Line) :
    Lower Place := do
  let symbol := found.1
  if !symbol.hasStorage then fail line (.notAValue symbol.name symbol.cls)
  if symbol.type.isScalar then fail line (.arrayDimension s!"'{symbol.name}' is not an array")
  if symbol.type.rank ≠ subscripts then
    fail line (.arrayDimension
      s!"array '{symbol.name}' has {symbol.type.rank} dimensions, found {subscripts} subscripts")
  place r found line

/-- A literal subscript that lies outside a fixed extent. -/
def outOfRange? (extent : Extent) (index : Expr) : Option (Int64 × UInt64) :=
  match extent, index.integer? with
  | .fixed n, some value => if value < 1 ∨ n.toInt64 < value then some (value,n) else none
  | _, _ => none

def boundsCheck (array : Place) (dim : Nat) : Extent → Code
  | .fixed _ => []
  | .dynamic => [.checkBounds array dim]

mutual

def expr (r : Routine) : Expr → Lower Value
  | .literal _ value => pure ⟨[.const value],.scalar value.base⟩
  | .ident line name => ident r name line
  | .index line name indices => do
    if ← isIntrinsic r name then callValue r name line (exprs r indices)
    else
      let found ← resolve name line
      if found.1.isRoutine then callValue r name line (exprs r indices)
      else
        let array ← arrayPlace r found indices.length line
        let code ← subscripts r found.1.name array line 0 found.1.type.dimensions indices
        pure ⟨code ++ [.loadElement array indices.length],found.1.type.element⟩
  | .unary line op operand => do
    let value ← expr r operand
    let base ← lift (Typing.unary op value.type line)
    pure ⟨value.code ++ [.unary op base],.scalar base⟩
  | .binary line left op right => do
    let x ← expr r left
    let y ← expr r right
    let typing ← lift (Typing.binary r.language op x.type y.type line)
    pure ⟨x.code ++ typing.left.code ++ y.code ++ typing.right.code ++
      [.binary typing.op typing.operand],.scalar typing.result⟩
  | .call line name args => callValue r name line (exprs r args)

def exprs (r : Routine) : List Expr → Lower (List Value)
  | [] => pure []
  | e :: rest => do
    let value ← expr r e
    let values ← exprs r rest
    pure (value :: values)

/-- Subscripts of an array from dimension `dim` on, each checked against its extent. -/
def subscripts (r : Routine) (name : String) (array : Place) (line : Line) (dim : Nat)
    (extents : List Extent) : List Expr → Lower Code
  | [] => pure []
  | index :: rest =>
    match extents with
    | [] => pure []
    | extent :: extents => do
      let value ← expr r index
      lift (Typing.subscript value.type line)
      if let some (found,n) := outOfRange? extent index then
        fail line (.arrayDimension
          s!"subscript {found.toInt} is out of range 1..{n.toNat} in dimension {dim + 1} of '{name}'")
      let code ← subscripts r name array line (dim + 1) extents rest
      pure (value.code ++ boundsCheck array dim extent ++ code)

end

end StackCompiler.Lowering
