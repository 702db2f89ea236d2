import StackCompiler.Lowering.Declaration

/-! Code of statements. A statement that fails leaves no code behind; the next one is taken up. -/
namespace StackCompiler.Lowering

open Lower

def condition (r : Routine) (cond : Expr) : Lower Code := do
  let value ← expr r cond
  lift (Typing.condition value.type cond.line)
  pure value.code

def labelOf (r : Routine) (name : String) (line : Line) : Lower Label := do
  let (symbol,_) ← resolve name line
  if symbol.cls = .label then
    match r.labels.lookup symbol.key with
    | some l => pure l
    | none =>
      fail line (.unsupportedConstruct
        s!"jump to label '{name}' outside of routine '{r.entry}'")
  else fail line (.unresolvedSymbol name)

def shareAll (line : Line) : List String → Lower Code
  | [] => pure []
  | name :: rest => do
    let _ ← withScopes fun scopes => scopes.share name line
    shareAll line rest

/-- An assignment to a variable, to an array element, or to the result of the function. -/
def assign (r : Routine) (target : Target) (value : Expr) (line : Line) : Lower Code := do
  let found ← resolve target.name line
  let symbol := found.1
  if symbol.cls = .function ∧ target.indices.isEmpty ∧ r.resultName = some symbol.key then
    let v ← expr r value
    let coercion ← coerce (.scalar r.returns) v.type line
    let slot ← resultSlot r
    pure (v.code ++ coercion ++ slot.toList.map fun n => .store (.slot n))
  else if !symbol.hasStorage then fail line (.notAssignable target.name symbol.cls)
  else if target.indices.isEmpty then
    let p ← place r found line
    let v ← expr r value
    let coercion ← coerce symbol.type v.type line
    if symbol.type.isArray then
      fail line (.unsupportedConstruct s!"assignment to whole array '{target.name}'")
    pure (v.code ++ coercion ++ [.store p])
  else
    let array ← arrayPlace r found target.indices.length line
    let code ← subscripts r symbol.name array line 0 symbol.type.dimensions target.indices
    let v ← expr r value
    let coercion ← coerce symbol.type.element v.type line
    pure (code ++ v.code ++ coercion ++ [.storeElement array target.indices.length])

def callStmt (r : Routine) (name : String) (args : List Expr) (line : Line) : Lower Code := do
  let (code,type) ← call r name line (exprs r args)
  pure (if type.isSome then code ++ [.pop] else code)

/-- Returning: a value of the declared type, the result assigned so far, or nothing. -/
def ret (r : Routine) (value : Option Expr) (line : Line) : Lower Code := do
  match value with
  | none =>
    if r.returns = .void then pure [.ret false]
    else
      match ← resultSlot r with
      | some slot => pure [.load (.slot slot),.ret true]
      | none => fail line (.typeMismatch (.scalar r.returns) (.scalar .void))
  | some e =>
    let v ← expr r e
    if r.returns = .void then fail line (.typeMismatch (.scalar .void) v.type)
    else
      let coercion ← coerce (.scalar r.returns) v.type line
      pure (v.code ++ coercion ++ [.ret true])

def printer? (t : Ty) : Option String :=
  if t.isArray then none
  else
    match t.base with
    | .integer => some "rt.print_int"
    | .double => some "rt.print_double"
    | .char => some "rt.print_str"
    | .boolean => some "rt.print_bool"
    | .label | .void => none

def printAll (r : Routine) (line : Line) : List Expr → Lower Code
  | [] => pure [.call (.runtime "rt.newline") 0 false]
  | e :: rest => do
    let v ← expr r e
    match printer? v.type with
    | none => fail line (.invalidOperand "PRINT" v.type)
    | some name =>
      let code ← printAll r line rest
      pure (v.code ++ .call (.runtime name) 1 false :: code)

/-- The step of a counting loop: a constant, counting upwards or not, or a slot that holds it. -/
inductive Step
  | constant (value : Literal) (ascending : Bool)
  | dynamic (slot : Slot)

namespace Step

def ascends : Literal → Bool
  | .integer n => 0 ≤ n
  | .double x => 0.0 ≤ x
  | _ => true

def load : Step → Code
  | constant value _ => [.const value]
  | dynamic slot => [.load (.slot slot)]

def signed (counter : Place) (limit slot : Slot) (base : BaseType) (sign bound : BinaryOp) : Code :=
  let zero := (Literal.zero base).getD (.integer 0)
  [.load (.slot slot),.const zero,.binary sign base,
    .load counter,.load (.slot limit),.binary bound base,.binary .and .boolean]

/-- Whether the loop goes on: the counter has not passed the limit. -/
def test (counter : Place) (limit : Slot) (base : BaseType) : Step → Code
  | constant _ ascending =>
    [.load counter,.load (.slot limit),.binary (if ascending then .le else .ge) base]
  | dynamic slot =>
    signed counter limit slot base .ge .le ++ signed counter limit slot base .lt .ge ++
      [.binary .or .boolean]

end Step

/-- The step of a counting loop and the code that computes it, if it has to be computed. -/
def stepOf (r : Routine) (type : Ty) : Option Expr → Lower (Code × Step)
  | none =>
    let one := Literal.integer 1
    pure ([],.constant (if type.base = .double then one.promote else one) true)
  | some e =>
    match e.constant? with
    | some value => do
      let _ ← lift (Typing.assign type (.scalar value.base) e.line)
      pure ([],.constant (if type.base = .double then value.promote else value)
        (Step.ascends value))
    | none => do
      let v ← expr r e
      let coercion ← coerce type v.type e.line
      let slot ← tempSlot type
      pure (v.code ++ coercion ++ [.store (.slot slot)],.dynamic slot)

/-- The parts of a counting loop before its body: the counter, the slot of the limit, the step, the
type they have, and the code that sets them up. -/
structure ForHead where
  counter : Place
  limit : Slot
  step : Step
  base : BaseType
  code : Code

def forHead (r : Routine) (var : String) (first last : Expr) (step : Option Expr) (line : Line) :
    Lower ForHead := do
  let found ← resolve var line
  let symbol := found.1
  if !symbol.hasStorage then fail line (.notAssignable var symbol.cls)
  if !symbol.type.isNumeric then
    fail line (.typeMismatch (.scalar .integer) symbol.type)
  let counter ← place r found line
  let x ← expr r first
  let firstCoercion ← coerce symbol.type x.type first.line
  let y ← expr r last
  let lastCoercion ← coerce symbol.type y.type last.line
  let limit ← tempSlot symbol.type
  let (stepCode,step) ← stepOf r symbol.type step
  pure
    { counter, limit, step, base := symbol.type.base
      code := x.code ++ firstCoercion ++ [.store counter] ++
        y.code ++ lastCoercion ++ [.store (.slot limit)] ++ stepCode }

def ForHead.loop (h : ForHead) (again test : Label) (body : Code) : Code :=
  h.code ++ [.branch test,.label again] ++ body ++
    [.load h.counter] ++ h.step.load ++ [.binary .add h.base,.store h.counter] ++
    [.label test] ++ h.step.test h.counter h.limit h.base ++ [.branchIf true again]

mutual

def stmt (r : Routine) : Stmt → Lower Code
  | .declare _ d => declaration r d
  | .share line names => shareAll line names
  | .assign line target value => assign r target value line
  | .call line name args => callStmt r name args line
  | .ifElse _ cond yes no => do
    let test ← condition r cond
    let done ← freshLabel
    let other ← if no.isEmpty then pure done else freshLabel
    let yesCode ← stmts r yes
    let noCode ← stmts r no
    let otherwise := if no.isEmpty then [] else [.branch done,.label other] ++ noCode
    pure (test ++ [.branchIf false other] ++ yesCode ++ otherwise ++ [.label done])
  | .whileDo _ cond body => do
    let again ← freshLabel
    let test ← freshLabel
    let bodyCode ← stmts r body
    let testCode ← condition r cond
    pure ([.branch test,.label again] ++ bodyCode ++ [.label test] ++ testCode ++
      [.branchIf true again])
  | .repeatUntil _ body cond => do
    let again ← freshLabel
    let bodyCode ← stmts r body
    let testCode ← condition r cond
    pure ([.label again] ++ bodyCode ++ testCode ++ [.branchIf false again])
  | .forTo line var first last step body => do
    let head ← forHead r var first last step line
    let again ← freshLabel
    let test ← freshLabel
    let bodyCode ← stmts r body
    pure (head.loop again test bodyCode)
  | .label line name => do
    let l ← labelOf r name line
    pure [.label l]
  | .goto line name => do
    let l ← labelOf r name line
    pure [.branch l]
  | .ret line value => ret r value line
  | .print line values => printAll r line values
  | .stop _ => pure [.call (.runtime "rt.stop") 0 false]

def stmts (r : Routine) : List Stmt → Lower Code
  | [] => pure []
  | s :: rest => do
    let code ← recover (stmt r s)
    let more ← stmts r rest
    pure (code ++ more)

end

end StackCompiler.Lowering
