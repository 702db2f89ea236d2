import StackCompiler.Lowering.Stmt
import StackCompiler.Proofs.OpenRuns

/-! What expressions and statements mean, told without code.
Variables of a routine are known by their keys, those of the outermost scope by their names. A
condition is a truth value: what is not false takes the first branch, only what is true starts
another round of a loop, and only what is false repeats a body. Labels and jumps have no meaning of
their own here. -/
namespace StackCompiler

namespace Stmt

def isJump : Stmt → Bool
  | label .. | goto .. => true
  | _ => false

/-- There are no labels and no jumps among the statements, nor inside them. -/
def Structured (xs : List Stmt) : Prop := ∀ x ∈ flattenAll xs, x.isJump = false

end Stmt

namespace Evaluation

open Machine

/-- What evaluation knows of the routine: its language, the depth of its scope (the main program has
depth zero), and what it returns. -/
structure Setting where
  language : Language
  depth : Nat
  returns : BaseType

/-- What evaluation reads and changes: the variables of the routine, what all routines share, and
the calls made so far. -/
structure World where
  locals : String → Value
  store : Store
  calls : List Call

/-- How evaluation comes out. It ends early by a return, by a trap, or with a call that does not come
back; it is unfinished if a loop has not come to its end within the rounds it was given. -/
inductive Outcome (α : Type)
  | done (a : α) (w : World)
  | ended (e : Ending) (w : World)
  | unfinished

def Eval (α : Type) := World → Outcome α

instance : Monad Eval where
  pure a := fun w => .done a w
  bind x f := fun w =>
    match x w with
    | .done a w => f a w
    | .ended e w => .ended e w
    | .unfinished => .unfinished

variable {α β : Type}

section bind

variable {x : Eval α} {f : α → Eval β} {w w' : World}

theorem bind_of_done {a : α} (hx : x w = .done a w') : (x >>= f) w = f a w' := by
  simp only [bind,hx]

theorem bind_of_ended {e : Ending} (hx : x w = .ended e w') : (x >>= f) w = .ended e w' := by
  simp only [bind,hx]

theorem bind_of_unfinished (hx : x w = .unfinished) : (x >>= f) w = .unfinished := by
  simp only [bind,hx]

theorem bind_eq_done {b : β} (h : (x >>= f) w = .done b w') :
    ∃ a w₁, x w = .done a w₁ ∧ f a w₁ = .done b w' := by
  cases hx : x w with
  | done a w₁ =>
    rw [bind_of_done hx] at h
    exact ⟨a,w₁,rfl,h⟩
  | ended e w₁ =>
    rw [bind_of_ended hx] at h
    cases h
  | unfinished =>
    rw [bind_of_unfinished hx] at h
    cases h

end bind

def finish (e : Ending) : Eval α := fun w => .ended e w

def orTrap : Option α → Eval α
  | some a => pure a
  | none => finish .trapped

/-- Where a variable is at home. -/
inductive Home
  | global (key : String)
  | own (key : String)

namespace World

def read (w : World) : Home → Value
  | .global key => w.store.globals key
  | .own key => w.locals key

def write (w : World) (v : Value) : Home → World
  | .global key => { w with store := { w.store with globals := Function.update w.store.globals key v } }
  | .own key => { w with locals := Function.update w.locals key v }

end World

def load (x : Home) : Eval Value := fun w => .done (w.read x) w

def store (x : Home) (v : Value) : Eval Unit := fun w => .done () (w.write v x)

def element (array : Home) (subscripts : List Value) : Eval Value := fun w =>
  orTrap (w.store.element? (w.read array) subscripts) w

def setElement (array : Home) (subscripts : List Value) (v : Value) : Eval Unit := fun w =>
  match w.store.setElement? (w.read array) subscripts v with
  | some s => .done () { w with store := s }
  | none => .ended .trapped w

def checkBounds (array : Home) (dim : Nat) (subscript : Value) : Eval Unit := fun w =>
  if w.store.inBounds (w.read array) dim subscript then .done () w else .ended .trapped w

/-- A subscript of a dynamic dimension is checked as soon as it is known, any other when the element
is reached. -/
def checkSubscript (array : Home) (dim : Nat) (subscript : Value) : Extent → Eval Unit
  | .fixed _ => pure ()
  | .dynamic => checkBounds array dim subscript

def makeArray (array : Home) (element : BaseType) (extents : List Value) : Eval Unit := fun w =>
  match w.store.allocate? element extents with
  | some (v,s) => .done () ({ w with store := s }.write v array)
  | none => .ended .trapped w

def home? (r : Setting) (found : Symbol × Nat) : Option Home :=
  if found.2 = 0 then some (.global found.1.key)
  else if found.2 = r.depth then some (.own found.1.key)
  else none

section calls

variable (h : Host)

def ask (target : CallTarget) (args : List Value) : Eval (Option Value) := fun w =>
  let calls := w.calls ++ [⟨target,args,w.store⟩]
  match h.answer calls with
  | .halt e s => .ended e { w with store := s, calls }
  | .resume s v => .done v { w with store := s, calls }

variable {h} in
theorem ask_of_halt {target : CallTarget} {args : List Value} {w : World} {e : Ending} {s : Store}
    (ha : h.answer (w.calls ++ [⟨target,args,w.store⟩]) = .halt e s) :
    ask h target args w = .ended e ⟨w.locals,s,w.calls ++ [⟨target,args,w.store⟩]⟩ := by
  simp only [ask,ha]

variable {h} in
theorem ask_of_resume {target : CallTarget} {args : List Value} {w : World} {s : Store}
    {v : Option Value} (ha : h.answer (w.calls ++ [⟨target,args,w.store⟩]) = .resume s v) :
    ask h target args w = .done v ⟨w.locals,s,w.calls ++ [⟨target,args,w.store⟩]⟩ := by
  simp only [ask,ha]

def callFor (target : CallTarget) (args : List Value) : Eval Value := do
  let v ← ask h target args
  orTrap v

def callOnly (target : CallTarget) (args : List Value) : Eval Unit := do
  let _ ← ask h target args
  pure ()

def convert : Coercion → Value → Eval Value
  | .keep, v => pure v
  | .toDouble, v => orTrap (h.operations.convert v)

/-- A checked call: whom it reaches, what the arguments need, and whether a value comes back. -/
structure CheckedCall where
  target : CallTarget
  coercions : List Coercion
  returns : Bool

/-- A checked call for a value, with the arguments that it asks for. -/
def invoke (c : Option CheckedCall) (args : List Coercion → Eval (List Value)) : Eval Value := do
  let c ← orTrap c
  let values ← args c.coercions
  callFor h c.target values

end calls

section types

variable (r : Setting) (scopes : ScopeStack)

def callee? (name : String) (line : Line) : Option (CallTarget × Symbol) :=
  match scopes.resolveRoutine name with
  | some (symbol,_) =>
    if symbol.isRoutine then some (.routine (symbol.entry.getD symbol.key),symbol) else none
  | none => (Intrinsic.find? r.language name).map fun i => (.runtime i.runtime,i.symbol line)

def typeOf : Expr → Option Ty
  | .literal _ l => some (.scalar l.base)
  | .ident line name =>
    match scopes.resolve name with
    | some (symbol,_) => some symbol.type
    | none => (callee? r scopes name line).map fun c => c.2.type
  | .index line name _ =>
    match scopes.resolve name with
    | some (symbol,_) => some (if symbol.isRoutine then symbol.type else symbol.type.element)
    | none => (callee? r scopes name line).map fun c => c.2.type
  | .unary line op operand => do
    let t ← typeOf operand
    let base ← (Typing.unary op t line).toOption
    some (.scalar base)
  | .binary line left op right => do
    let t ← typeOf left
    let u ← typeOf right
    let typing ← (Typing.binary r.language op t u line).toOption
    some (.scalar typing.result)
  | .call line name _ => (callee? r scopes name line).map fun c => c.2.type

def unaryBase? (line : Line) (op : UnaryOp) (operand : Expr) : Option BaseType := do
  let t ← typeOf r scopes operand
  (Typing.unary op t line).toOption

def binaryTyping? (line : Line) (left : Expr) (op : BinaryOp) (right : Expr) :
    Option BinaryTyping := do
  let t ← typeOf r scopes left
  let u ← typeOf r scopes right
  (Typing.binary r.language op t u line).toOption

def coercion? (target : Ty) (e : Expr) (line : Line) : Option Coercion := do
  let t ← typeOf r scopes e
  (Typing.assign target t line).toOption

def checkedCall? (name : String) (line : Line) (args : List Expr) : Option CheckedCall := do
  let (target,signature) ← callee? r scopes name line
  let types ← args.mapM (typeOf r scopes)
  let coercions ← (Typing.call signature types line).toOption
  some ⟨target,coercions,!signature.type.isVoid⟩

end types

section expressions

variable (h : Host) (r : Setting) (scopes : ScopeStack)

mutual

def eval : Expr → Eval Value
  | .literal _ l => pure (.scalar l)
  | .ident line name =>
    match scopes.resolve name with
    | some (symbol,depth) =>
      match symbol.cls with
      | .constant => do
        let l ← orTrap symbol.value
        pure (.scalar l)
      | .variable | .parameter => do
        let x ← orTrap (home? r (symbol,depth))
        load x
      | .function => invoke h (checkedCall? r scopes name line []) fun _ => pure []
      | .label => finish .trapped
    | none => invoke h (checkedCall? r scopes name line []) fun _ => pure []
  | .index line name indices =>
    match scopes.resolve name with
    | some (symbol,depth) =>
      if symbol.isRoutine then
        invoke h (checkedCall? r scopes name line indices) fun cs => arguments cs indices
      else do
        let array ← orTrap (home? r (symbol,depth))
        let values ← subscripts array 0 symbol.type.dimensions indices
        element array values
    | none => invoke h (checkedCall? r scopes name line indices) fun cs => arguments cs indices
  | .unary line op operand => do
    let base ← orTrap (unaryBase? r scopes line op operand)
    let x ← eval operand
    orTrap (h.operations.unary op base x)
  | .binary line left op right => do
    let typing ← orTrap (binaryTyping? r scopes line left op right)
    let x ← eval left
    let x ← convert h typing.left x
    let y ← eval right
    let y ← convert h typing.right y
    orTrap (h.operations.binary typing.op typing.operand x y)
  | .call line name args =>
    invoke h (checkedCall? r scopes name line args) fun cs => arguments cs args

/-- Arguments from left to right, each converted before the next is taken up. -/
def arguments : List Coercion → List Expr → Eval (List Value)
  | c :: coercions, e :: rest => do
    let v ← eval e
    let v ← convert h c v
    let values ← arguments coercions rest
    pure (v :: values)
  | _, _ => pure []

/-- Subscripts from left to right, each checked before the next is taken up. -/
def subscripts (array : Home) (dim : Nat) : List Extent → List Expr → Eval (List Value)
  | extent :: extents, e :: rest => do
    let v ← eval e
    checkSubscript array dim v extent
    let values ← subscripts array (dim + 1) extents rest
    pure (v :: values)
  | _, _ => pure []

end

variable {h r scopes}

theorem eval_index_call {line : Line} {name : String} {indices : List Expr} {symbol : Symbol}
    {depth : Nat} (hres : scopes.resolve name = some (symbol,depth)) (hc : symbol.isRoutine = true) :
    eval h r scopes (.index line name indices) =
      invoke h (checkedCall? r scopes name line indices) fun cs => arguments h r scopes cs indices := by
  rw [eval,hres]
  exact if_pos hc

theorem eval_index_element {line : Line} {name : String} {indices : List Expr} {symbol : Symbol}
    {depth : Nat} {x : Home} (hres : scopes.resolve name = some (symbol,depth))
    (hc : symbol.isRoutine = false) (hx : home? r (symbol,depth) = some x) :
    eval h r scopes (.index line name indices) = (do
      let values ← subscripts h r scopes x 0 symbol.type.dimensions indices
      element x values) := by
  rw [eval,hres]
  refine (if_neg (ne_true_of_eq_false hc)).trans ?_
  rw [hx]
  rfl

theorem length_of_arguments : ∀ {es : List Expr} {cs : List Coercion} {w w' : World}
    {values : List Value}, cs.length = es.length →
    arguments h r scopes cs es w = .done values w' → values.length = es.length
  | [], cs, _, _, _, _, hv => by
    cases cs <;> (cases hv; rfl)
  | _ :: _, [], _, _, _, hlen, _ => by cases hlen
  | e :: es, c :: cs, w, w', values, hlen, hv => by
    obtain ⟨_,_,_,hv⟩ := bind_eq_done hv
    obtain ⟨_,_,_,hv⟩ := bind_eq_done hv
    obtain ⟨rest,_,hrest,hv⟩ := bind_eq_done hv
    cases hv
    exact congrArg (· + 1) (length_of_arguments (Nat.succ.inj hlen) hrest)

theorem length_of_subscripts {array : Home} : ∀ {es : List Expr} {extents : List Extent} {dim : Nat}
    {w w' : World} {values : List Value}, extents.length = es.length →
    subscripts h r scopes array dim extents es w = .done values w' → values.length = es.length
  | [], extents, _, _, _, _, _, hv => by
    cases extents <;> (cases hv; rfl)
  | _ :: _, [], _, _, _, _, hlen, _ => by cases hlen
  | e :: es, extent :: extents, dim, w, w', values, hlen, hv => by
    obtain ⟨_,_,_,hv⟩ := bind_eq_done hv
    obtain ⟨_,_,_,hv⟩ := bind_eq_done hv
    obtain ⟨rest,_,hrest,hv⟩ := bind_eq_done hv
    cases hv
    exact congrArg (· + 1) (length_of_subscripts (Nat.succ.inj hlen) hrest)

variable (h r scopes)

def valueFor (target : Ty) (e : Expr) (line : Line) : Eval Value := do
  let c ← orTrap (coercion? r scopes target e line)
  let v ← eval h r scopes e
  convert h c v

end expressions

section declarations

variable (h : Host) (r : Setting) (scopes : ScopeStack)

/-- The extents of an array from left to right; a dynamic one is the next of the given sizes. -/
def extents : List Extent → List Expr → Eval (List Value)
  | [], _ => pure []
  | .fixed n :: rest, sizes => do
    let values ← extents rest sizes
    pure (.scalar (.integer n.toInt64) :: values)
  | .dynamic :: _, [] => finish .trapped
  | .dynamic :: rest, size :: sizes => do
    let v ← eval h r scopes size
    let values ← extents rest sizes
    pure (v :: values)

variable {h r scopes} in
theorem length_of_extents : ∀ {dimensions : List Extent} {sizes : List Expr} {w w' : World}
    {values : List Value}, extents h r scopes dimensions sizes w = .done values w' →
    values.length = dimensions.length
  | [], _, _, _, _, hv => by
    cases hv
    rfl
  | .fixed _ :: _, _, _, _, _, hv => by
    obtain ⟨rest,_,hrest,hv⟩ := bind_eq_done hv
    cases hv
    exact congrArg (· + 1) (length_of_extents hrest)
  | .dynamic :: _, [], _, _, _, hv => by cases hv
  | .dynamic :: _, _ :: _, _, _, _, hv => by
    obtain ⟨_,_,_,hv⟩ := bind_eq_done hv
    obtain ⟨rest,_,hrest,hv⟩ := bind_eq_done hv
    cases hv
    exact congrArg (· + 1) (length_of_extents hrest)

def allocate (d : Declaration) (array : Home) : Eval Unit := do
  let values ← extents h r scopes d.dimensions d.extents
  makeArray array d.base values

/-- The declaration is that of an array. -/
def MakesArray (d : Declaration) : Prop := d.cls = .variable ∧ d.dimensions ≠ []

instance (d : Declaration) : Decidable (MakesArray d) :=
  inferInstanceAs (Decidable (d.cls = .variable ∧ d.dimensions ≠ []))

/-- A declaration that is come to makes its array, if it is one. The sizes may refer to the array's
own name. -/
def declaration (d : Declaration) : Eval Unit :=
  if MakesArray d then
    if r.depth = 0 then allocate h r scopes d (.global (scopes.normalize d.name))
    else
      match Lowering.declare d scopes with
      | (.ok symbol,scopes) => allocate h r scopes d (.own symbol.key)
      | (.error _,_) => finish .trapped
  else pure ()

mutual

/-- The scopes behind a statement. In the main program everything is declared beforehand. -/
def after (scopes : ScopeStack) : Stmt → ScopeStack
  | .declare _ d => if r.depth = 0 then scopes else (Lowering.declare d scopes).2
  | .share line names => names.foldl (fun scopes name => (scopes.share name line).2) scopes
  | .ifElse _ _ yes no => afterAll (afterAll scopes yes) no
  | .whileDo _ _ body => afterAll scopes body
  | .repeatUntil _ body _ => afterAll scopes body
  | .forTo _ _ _ _ _ body => afterAll scopes body
  | _ => scopes

def afterAll (scopes : ScopeStack) : List Stmt → ScopeStack
  | [] => scopes
  | x :: rest => afterAll (after scopes x) rest

end

end declarations

/-- Tests before each round and goes on while the test is true. -/
def rounds (test : Eval Value) (body : Eval Unit) : Nat → Eval Unit
  | 0 => fun _ => .unfinished
  | n + 1 => do
    let v ← test
    if v = .scalar (.boolean true) then
      body
      rounds test body n
    else pure ()

/-- Tests after each round and goes on while the test is false. -/
def repeats (body : Eval Unit) (test : Eval Value) : Nat → Eval Unit
  | 0 => fun _ => .unfinished
  | n + 1 => do
    body
    let v ← test
    if v = .scalar (.boolean false) then repeats body test n else pure ()

/-- The number below zero that a minus sign makes of a number, if there is one. -/
def negative? : Literal → Option Literal
  | .integer n =>
    if -n.toInt ≤ Int64.maxValue.toInt then some (.integer (Int64.ofInt (-n.toInt))) else none
  | .double x => some (.double (-x))
  | .char _ | .boolean _ => none

/-- What an expression says without being computed: a literal, or one behind a minus sign. -/
def numeral? : Expr → Option Literal
  | .literal _ l => some l
  | .unary _ .neg (.literal _ l) => negative? l
  | _ => none

def nearest (n : Int) : Float :=
  if n < 0 then -(-n).toNat.toUInt64.toFloat else n.toNat.toUInt64.toFloat

/-- A number in the type of a loop's counter. -/
def counted (base : BaseType) : Literal → Literal
  | .integer n => if base = .double then .double (nearest n.toInt) else .integer n
  | l => l

/-- A number that stands in the program is not below zero. -/
def upwards : Literal → Bool
  | .integer n => 0 ≤ n.toInt
  | .double x => 0.0 ≤ x
  | .char _ | .boolean _ => true

def zeroOf (base : BaseType) : Literal := if base = .double then .double 0.0 else .integer 0

/-- The step of a counting loop: a number that stands there, or what was computed for it. -/
inductive Stride
  | constant (l : Literal)
  | computed (v : Value)

def Stride.value (base : BaseType) : Stride → Value
  | constant l => .scalar (counted base l)
  | computed v => v

/-- A counting loop that goes on: its counter and the type it counts in, the limit and the step. -/
structure Count where
  counter : Home
  base : BaseType
  limit : Value
  stride : Stride

section loops

variable (h : Host)

def Count.keepsTo (c : Count) (step : Value) (sign bound : BinaryOp) : Eval Value := do
  let signed ← orTrap (h.operations.binary sign c.base step (.scalar (zeroOf c.base)))
  let x ← load c.counter
  let bounded ← orTrap (h.operations.binary bound c.base x c.limit)
  orTrap (h.operations.binary .and .boolean signed bounded)

/-- The counter is at most the limit and the step is not negative, or it is at least the limit and
the step is negative. The sign of a constant is known, that of a computed step is asked for. -/
def Count.goesOn (c : Count) : Eval Value :=
  match c.stride with
  | .constant l => do
    let x ← load c.counter
    orTrap (h.operations.binary (if upwards l then .le else .ge) c.base x c.limit)
  | .computed step => do
    let up ← c.keepsTo h step .ge .le
    let down ← c.keepsTo h step .lt .ge
    orTrap (h.operations.binary .or .boolean up down)

def Count.advance (c : Count) : Eval Unit := do
  let x ← load c.counter
  let sum ← orTrap (h.operations.binary .add c.base x (c.stride.value c.base))
  store c.counter sum

def strideOf (r : Setting) (scopes : ScopeStack) (type : Ty) : Option Expr → Eval Stride
  | none => pure (.constant (.integer 1))
  | some e =>
    match numeral? e with
    | some l => pure (.constant l)
    | none => do
      let v ← valueFor h r scopes type e e.line
      pure (.computed v)

/-- The start of a counting loop: the first value is stored, then the limit and the step are computed
once for all rounds. -/
def countFrom (r : Setting) (scopes : ScopeStack) (var : String) (first last : Expr)
    (step : Option Expr) : Eval Count := do
  let found ← orTrap (scopes.resolve var)
  let counter ← orTrap (home? r found)
  let x ← valueFor h r scopes found.1.type first first.line
  store counter x
  let limit ← valueFor h r scopes found.1.type last last.line
  let stride ← strideOf h r scopes found.1.type step
  pure ⟨counter,found.1.type.base,limit,stride⟩

variable {h} in
theorem countFrom_eq {r : Setting} {scopes : ScopeStack} {var : String} {first last : Expr}
    {step : Option Expr} {found : Symbol × Nat} {x : Home}
    (hres : scopes.resolve var = some found) (hx : home? r found = some x) :
    countFrom h r scopes var first last step = (do
      let v ← valueFor h r scopes found.1.type first first.line
      store x v
      let limit ← valueFor h r scopes found.1.type last last.line
      let stride ← strideOf h r scopes found.1.type step
      pure ⟨x,found.1.type.base,limit,stride⟩) := by
  rw [countFrom,hres]
  change (orTrap (home? r found) >>= _) = _
  rw [hx]
  rfl

end loops

section statements

variable (h : Host) (r : Setting)

def assign (scopes : ScopeStack) (target : Target) (value : Expr) (line : Line) : Eval Unit := do
  let found ← orTrap (scopes.resolve target.name)
  let x ← orTrap (home? r found)
  if target.indices.isEmpty then
    let v ← valueFor h r scopes found.1.type value line
    store x v
  else
    let values ← subscripts h r scopes x 0 found.1.type.dimensions target.indices
    let v ← valueFor h r scopes found.1.type.element value line
    setElement x values v

section assign

variable {h r} {scopes : ScopeStack} {target : Target} {value : Expr} {line : Line}
  {found : Symbol × Nat} {x : Home}

theorem assign_variable (hres : scopes.resolve target.name = some found)
    (hx : home? r found = some x) (hi : target.indices = []) :
    assign h r scopes target value line = (do
      let v ← valueFor h r scopes found.1.type value line
      store x v) := by
  rw [assign,hres,hi]
  change (orTrap (home? r found) >>= _) = _
  rw [hx]
  rfl

theorem assign_element (hres : scopes.resolve target.name = some found)
    (hx : home? r found = some x) (hi : target.indices ≠ []) :
    assign h r scopes target value line = (do
      let values ← subscripts h r scopes x 0 found.1.type.dimensions target.indices
      let v ← valueFor h r scopes found.1.type.element value line
      setElement x values v) := by
  have hempty : ¬ target.indices.isEmpty = true := fun h => hi (List.isEmpty_iff.mp h)
  rw [assign,hres]
  change (orTrap (home? r found) >>= _) = _
  rw [hx]
  exact if_neg hempty

end assign

def callStmt (scopes : ScopeStack) (name : String) (args : List Expr) (line : Line) : Eval Unit := do
  let c ← orTrap (checkedCall? r scopes name line args)
  let values ← arguments h r scopes c.coercions args
  if c.returns then
    let _ ← callFor h c.target values
  else callOnly h c.target values

/-- The run-time routine that prints a value of the type; arrays have none. -/
def printer? : Ty → Option String
  | ⟨.integer,[]⟩ => some "rt.print_int"
  | ⟨.double,[]⟩ => some "rt.print_double"
  | ⟨.char,[]⟩ => some "rt.print_str"
  | ⟨.boolean,[]⟩ => some "rt.print_bool"
  | _ => none

def printAll (scopes : ScopeStack) : List Expr → Eval Unit
  | [] => callOnly h (.runtime "rt.newline") []
  | e :: rest => do
    let printer ← orTrap ((typeOf r scopes e).bind printer?)
    let v ← eval h r scopes e
    callOnly h (.runtime printer) [v]
    printAll scopes rest

mutual

/-- Runs a statement; every loop may go through at most `limit` rounds. The condition of a loop sees
what the body declares. -/
def exec (limit : Nat) (scopes : ScopeStack) : Stmt → Eval Unit
  | .declare _ d => declaration h r scopes d
  | .share .. => pure ()
  | .assign line target value => assign h r scopes target value line
  | .call line name args => callStmt h r scopes name args line
  | .ifElse _ cond yes no => do
    let v ← eval h r scopes cond
    if v = .scalar (.boolean false) then execAll limit (afterAll r scopes yes) no
    else execAll limit scopes yes
  | .whileDo _ cond body =>
    rounds (eval h r (afterAll r scopes body) cond) (execAll limit scopes body) limit
  | .repeatUntil _ body cond =>
    repeats (execAll limit scopes body) (eval h r (afterAll r scopes body) cond) limit
  | .forTo _ var first last step body => do
    let c ← countFrom h r scopes var first last step
    rounds (c.goesOn h) (do execAll limit scopes body; c.advance h) limit
  | .label .. | .goto .. => finish .trapped
  | .ret _ none => finish (.returned none)
  | .ret line (some e) => do
    let v ← valueFor h r scopes (.scalar r.returns) e line
    finish (.returned (some v))
  | .print _ values => printAll h r scopes values
  | .stop _ => callOnly h (.runtime "rt.stop") []

def execAll (limit : Nat) (scopes : ScopeStack) : List Stmt → Eval Unit
  | [] => pure ()
  | x :: rest => do
    exec limit scopes x
    execAll limit (after r scopes x) rest

end

end statements

end Evaluation
end StackCompiler
