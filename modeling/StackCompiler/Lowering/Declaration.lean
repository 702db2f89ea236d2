import StackCompiler.Lowering.Expr

/-! Declarations: what may be declared, and the code that makes room for arrays. -/
namespace StackCompiler.Lowering

open Lower

/-- The symbol that a declaration introduces. A constant takes its value in the declared type; an
array has exactly one size for each dynamic dimension. -/
def declared (d : Declaration) : Except Diagnostic Symbol :=
  let wrong (cause : Cause) : Except Diagnostic Symbol := .error ⟨d.line,cause⟩
  match d.cls with
  | .constant =>
    if !d.dimensions.isEmpty then
      wrong (.arrayDimension s!"constant '{d.name}' cannot be an array")
    else
      match d.value with
      | none => wrong (.unsupportedConstruct s!"constant '{d.name}' has no value")
      | some value =>
        match Typing.assign d.type (.scalar value.base) d.line with
        | .error e => .error e
        | .ok .keep => .ok { d.symbol with value := some value }
        | .ok .toDouble => .ok { d.symbol with value := some value.promote }
  | .variable =>
    let dynamic := d.dimensions.countP (· == .dynamic)
    let sizes := d.extents.length
    if !d.base.isStorable then
      wrong (.unsupportedConstruct s!"variable '{d.name}' cannot have type '{d.base.text}'")
    else
      match d.type.validate d.name with
      | .error cause => wrong cause
      | .ok () =>
        if dynamic = sizes then .ok d.symbol
        else
          let given := if sizes = 1 then " is" else "s are"
          wrong (.arrayDimension
            s!"array '{d.name}' has {dynamic} dynamic extent{plural dynamic} but {sizes} size{given} given")
  | cls => wrong (.unsupportedConstruct s!"a {cls.text} cannot be introduced by a declaration")

def declare (d : Declaration) (scopes : ScopeStack) : Except Diagnostic Symbol × ScopeStack :=
  match declared d with
  | .error e => (.error e,scopes)
  | .ok symbol => scopes.declare symbol

/-- The extents of an array from left to right; a dynamic one is the next of the given sizes. -/
def extents (r : Routine) (d : Declaration) : List Extent → List Expr → Lower Code
  | [], _ => pure []
  | .fixed n :: rest, sizes => do
    let code ← extents r d rest sizes
    pure (.const (.integer n.toInt64) :: code)
  | .dynamic :: _, [] => fail d.line (.arrayDimension s!"missing size of array '{d.name}'")
  | .dynamic :: rest, size :: sizes => do
    let value ← expr r size
    lift (Typing.subscript value.type d.line)
    let code ← extents r d rest sizes
    pure (value.code ++ code)

def allocate (r : Routine) (d : Declaration) (array : Place) : Lower Code := do
  let code ← extents r d d.dimensions d.extents
  pure (code ++ [.alloc array d.base d.dimensions.length])

def needsRoom (d : Declaration) : Bool := d.cls == .variable && !d.dimensions.isEmpty

def allocateGlobal (r : Routine) (d : Declaration) : Lower Code := do
  if needsRoom d then
    let s ← get
    allocate r d (.global (s.scopes.normalize d.name))
  else pure []

/-- A declaration among the statements. Those of the main program are declared beforehand. -/
def declaration (r : Routine) (d : Declaration) : Lower Code := do
  if r.depth = 0 then allocateGlobal r d
  else
    let symbol ← withScopes (declare d)
    if needsRoom d then
      let slot ← localSlot symbol.key symbol.type
      allocate r d (.slot slot)
    else pure []

end StackCompiler.Lowering
