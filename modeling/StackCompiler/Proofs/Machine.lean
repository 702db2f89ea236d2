import Mathlib.Logic.Function.Basic
import StackCompiler.Code.Module
import StackCompiler.Optimize.Folding

/-! The machine that runs the code of a module.
A routine has an operand stack and numbered slots: the parameters first, every other slot starts at
the zero of its type. Variables of the outermost scope are found by name, arrays by their addresses.
What the operators compute and what the routines of the run-time library do is left open. -/
namespace StackCompiler.Machine

/-- What a variable or the operand stack holds: a constant, an array by its address, or nothing, as
before an array is made. -/
inductive Value
  | scalar (l : Literal)
  | array (address : Nat)
  | nothing
  deriving DecidableEq

namespace Value

def integer? : Value → Option Int64
  | scalar (.integer n) => some n
  | _ => none

def zero (t : Ty) : Value :=
  if t.isArray then nothing else ((Literal.zero t.base).map scalar).getD nothing

end Value

structure Block where
  extents : List Int64
  elements : List Int64 → Value

/-- Every subscript counts from one to the extent of its dimension. -/
def Block.covers (b : Block) (subscripts : List Int64) : Bool :=
  subscripts.length == b.extents.length &&
    (subscripts.zip b.extents).all fun p => 1 ≤ p.1 && p.1 ≤ p.2

/-- What all routines share: the variables of the outermost scope, and the arrays made so far. -/
structure Store where
  globals : String → Value
  arrays : List Block

namespace Store

def block? (s : Store) : Value → Option Block
  | .array a => s.arrays[a]?
  | _ => none

/-- An element of an array; none if there is no such array or a subscript is out of range. -/
def element? (s : Store) (array : Value) (subscripts : List Value) : Option Value := do
  let b ← s.block? array
  let is ← subscripts.mapM Value.integer?
  if b.covers is then some (b.elements is) else none

def setElement? (s : Store) (array : Value) (subscripts : List Value) (v : Value) :
    Option Store := do
  let b ← s.block? array
  let is ← subscripts.mapM Value.integer?
  match array with
  | .array a =>
    if b.covers is then
      some { s with arrays := s.arrays.set a { b with elements := Function.update b.elements is v } }
    else none
  | _ => none

/-- The subscript lies in a dimension of the array, counted from zero. -/
def inBounds (s : Store) (array : Value) (dim : Nat) (subscript : Value) : Bool :=
  match (s.block? array).bind (·.extents[dim]?), subscript.integer? with
  | some extent, some i => 1 ≤ i && i ≤ extent
  | _, _ => false

def allocate? (s : Store) (element : BaseType) (extents : List Value) : Option (Value × Store) := do
  let es ← extents.mapM Value.integer?
  let b : Block := { extents := es, elements := fun _ => .zero (.scalar element) }
  some (.array s.arrays.length,{ s with arrays := s.arrays ++ [b] })

end Store

def read (slots : Slot → Value) (s : Store) : Place → Value
  | .slot n => slots n
  | .global name => s.globals name

/-- Writing a place: the slot that changes, if it is one, and the store afterwards. -/
def write (s : Store) (v : Value) : Place → Option (Slot × Value) × Store
  | .slot n => (some (n,v),s)
  | .global name => (none,{ s with globals := Function.update s.globals name v })

def assign (slots : Slot → Value) : Option (Slot × Value) → Slot → Value
  | none => slots
  | some (n,v) => Function.update slots n v

theorem read_write (slots : Slot → Value) (s : Store) (v : Value) (p : Place) :
    read (assign slots (write s v p).1) (write s v p).2 p = v := by
  cases p with
  | slot n => simp [read,write,assign]
  | global name => simp [read,write]

/-- The operators; where there is no result the machine traps. -/
structure Operations where
  binary : BinaryOp → BaseType → Value → Value → Option Value
  unary : UnaryOp → BaseType → Value → Option Value
  convert : Value → Option Value

/-- The operators do what is done with constants wherever that has a result. -/
structure Operations.Lawful (o : Operations) : Prop where
  binary : ∀ {op : BinaryOp} {t : BaseType} {x y v : Literal}, Folding.binary? op t x y = some v →
    o.binary op t (.scalar x) (.scalar y) = some (.scalar v)
  unary : ∀ {op : UnaryOp} {t : BaseType} {x v : Literal}, Folding.unary? op x = some v →
    o.unary op t (.scalar x) = some (.scalar v)
  convert : ∀ n : Int64,
    o.convert (.scalar (.integer n)) = some (.scalar (.double (Literal.toDouble n)))

def Operations.folding : Operations where
  binary op t
    | .scalar x, .scalar y => (Folding.binary? op t x y).map .scalar
    | _, _ => none
  unary op _
    | .scalar x => (Folding.unary? op x).map .scalar
    | _ => none
  convert
    | .scalar x => some (.scalar x.promote)
    | _ => none

theorem Operations.folding_lawful : Operations.folding.Lawful where
  binary h := by simp [folding,h]
  unary h := by simp [folding,h]
  convert _ := rfl

inductive Effect
  | go (stack : List Value) (assigned : Option (Slot × Value)) (s : Store)
  | jump (l : Label) (stack : List Value)
  | call (target : CallTarget) (args : List Value) (returns : Bool) (stack : List Value)
  | ret (v : Option Value)
  | trap
  | underflow

namespace Effect

def push (stack : List Value) (s : Store) : Option Value → Effect
  | some v => go (v :: stack) none s
  | none => trap

end Effect

/-- One instruction. A return with a value gives back what is on top of the stack, if anything. -/
def exec (o : Operations) (slots : Slot → Value) (s : Store) (stack : List Value) : Instr → Effect
  | .const l => .go (.scalar l :: stack) none s
  | .load p => .go (read slots s p :: stack) none s
  | .store p =>
    match stack with
    | [] => .underflow
    | v :: rest => .go rest (write s v p).1 (write s v p).2
  | .loadElement p n =>
    if stack.length < n then .underflow
    else .push (stack.drop n) s (s.element? (read slots s p) (stack.take n).reverse)
  | .storeElement p n =>
    match stack with
    | [] => .underflow
    | v :: rest =>
      if rest.length < n then .underflow
      else
        match s.setElement? (read slots s p) (rest.take n).reverse v with
        | none => .trap
        | some t => .go (rest.drop n) none t
  | .checkBounds p dim =>
    match stack with
    | [] => .underflow
    | v :: _ => if s.inBounds (read slots s p) dim v then .go stack none s else .trap
  | .alloc p element n =>
    if stack.length < n then .underflow
    else
      match s.allocate? element (stack.take n).reverse with
      | none => .trap
      | some (v,t) => .go (stack.drop n) (write t v p).1 (write t v p).2
  | .binary op t =>
    match stack with
    | y :: x :: rest => .push rest s (o.binary op t x y)
    | _ => .underflow
  | .unary op t =>
    match stack with
    | x :: rest => .push rest s (o.unary op t x)
    | [] => .underflow
  | .convert =>
    match stack with
    | x :: rest => .push rest s (o.convert x)
    | [] => .underflow
  | .call target n returns =>
    if stack.length < n then .underflow
    else .call target (stack.take n).reverse returns (stack.drop n)
  | .dup =>
    match stack with
    | v :: rest => .go (v :: v :: rest) none s
    | [] => .underflow
  | .pop =>
    match stack with
    | _ :: rest => .go rest none s
    | [] => .underflow
  | .label _ => .go stack none s
  | .branch l => .jump l stack
  | .branchIf flag l =>
    match stack with
    | v :: rest => if v = .scalar (.boolean flag) then .jump l rest else .go rest none s
    | [] => .underflow
  | .ret false => .ret none
  | .ret true => .ret stack.head?

/-- The position of a label; the last one counts if there are several. -/
def target? (l : Label) : Code → Option Nat
  | [] => none
  | i :: rest =>
    match target? l rest with
    | some n => some (n + 1)
    | none => if i = .label l then some 0 else none

structure Config where
  pc : Nat
  stack : List Value
  slots : Slot → Value

/-- What a routine does next: it goes on, or it calls, ends or fails. -/
inductive Action
  | next (c : Config) (s : Store)
  | call (target : CallTarget) (args : List Value) (returns : Bool) (c : Config)
  | ret (v : Option Value)
  | trap
  | underflow

/-- Where control goes after an instruction at the position of the configuration. -/
def follow (code : Code) (c : Config) (s : Store) : Effect → Action
  | .go stack assigned t => .next ⟨c.pc + 1,stack,assign c.slots assigned⟩ t
  | .jump l stack =>
    match target? l code with
    | some n => .next ⟨n,stack,c.slots⟩ s
    | none => .trap
  | .call target args returns stack => .call target args returns ⟨c.pc + 1,stack,c.slots⟩
  | .ret v => .ret v
  | .trap => .trap
  | .underflow => .underflow

def step (o : Operations) (code : Code) (c : Config) (s : Store) : Action :=
  match code[c.pc]? with
  | none => .trap
  | some i => follow code c s (exec o c.slots s c.stack i)

/-- The caller goes on with the result of a call, if it has one where one is wanted. -/
def Config.resume (c : Config) (returns : Bool) (v : Option Value) : Option Config :=
  match returns, v with
  | false, _ => some c
  | true, some v => some { c with stack := v :: c.stack }
  | true, none => none

/-- The start of a routine on the given arguments. -/
def enter (r : RoutineCode) (args : List Value) : Config where
  pc := 0
  stack := []
  slots n :=
    if n < r.params then args.getD n .nothing
    else (r.frame[n]?.map fun info => Value.zero info.type).getD .nothing

/-- A call of the run-time library: its arguments and the store that it finds. -/
structure Event where
  name : String
  args : List Value
  store : Store

/-- How a run ends: the first routine returns, the library stops the program or never answers, or
something fails. -/
inductive Ending
  | returned (v : Option Value)
  | stopped
  | hung
  | trapped
  | underflow

inductive Reply
  | resume (s : Store) (v : Option Value)
  | halt (e : Ending) (s : Store)

/-- What the library does may depend on all that it was called for so far. -/
abbrev Library := List Event → String → List Value → Store → Reply

structure Caller where
  routine : RoutineCode
  config : Config
  returns : Bool

structure State where
  routine : RoutineCode
  config : Config
  callers : List Caller := []
  store : Store
  events : List Event := []

structure Result where
  ending : Ending
  store : Store
  events : List Event

inductive Run
  | running (s : State)
  | ended (r : Result)

def routine? (m : Module) (entry : String) : Option RoutineCode :=
  (m.entryPoints.lookup entry).bind (m.routines[·]?)

def State.goOn (s : State) : Option Config → Run
  | some c => .running { s with config := c }
  | none => .ended ⟨.trapped,s.store,s.events⟩

def State.perform (s : State) (m : Module) (lib : Library) : Action → Run
  | .next c t => .running { s with config := c, store := t }
  | .call (.routine entry) args returns c =>
    match routine? m entry with
    | none => .ended ⟨.trapped,s.store,s.events⟩
    | some r =>
      .running { s with
        routine := r
        config := enter r args
        callers := ⟨s.routine,c,returns⟩ :: s.callers }
  | .call (.runtime name) args returns c =>
    let events := s.events ++ [⟨name,args,s.store⟩]
    match lib events name args s.store with
    | .halt e t => .ended ⟨e,t,events⟩
    | .resume t v => { s with store := t, events }.goOn (c.resume returns v)
  | .ret v =>
    match s.callers with
    | [] => .ended ⟨.returned v,s.store,s.events⟩
    | caller :: rest =>
      { s with routine := caller.routine, callers := rest }.goOn
        (caller.config.resume caller.returns v)
  | .trap => .ended ⟨.trapped,s.store,s.events⟩
  | .underflow => .ended ⟨.underflow,s.store,s.events⟩

def State.step (s : State) (m : Module) (o : Operations) (lib : Library) : Run :=
  s.perform m lib (Machine.step o s.routine.code s.config s.store)

def run (m : Module) (o : Operations) (lib : Library) : Nat → Run → Run
  | 0, x => x
  | _ + 1, .ended r => .ended r
  | n + 1, .running s => run m o lib n (s.step m o lib)

def begin (m : Module) (i : Nat) (args : List Value) (s : Store) : Run :=
  match m.routines[i]? with
  | none => .ended ⟨.trapped,s,[]⟩
  | some r => .running { routine := r, config := enter r args, store := s }

/-- What can be seen of a run so far: the calls of the library, and how it ended. -/
def observe : Run → List Event × Option Result
  | .running s => (s.events,none)
  | .ended r => (r.events,some r)

/-- The observation is made at some point of the run. -/
def Observes (m : Module) (o : Operations) (lib : Library) (x : Run)
    (seen : List Event × Option Result) : Prop :=
  ∃ n, observe (run m o lib n x) = seen

end StackCompiler.Machine
