import StackCompiler.Literal
import StackCompiler.Operator

/-! Instructions of the stack machine.
Every routine has a frame of numbered slots, the parameters first; variables of the outermost scope
are addressed by name. A binary operator pops its right operand first. -/
namespace StackCompiler

abbrev Slot := Nat
abbrev Label := Nat

/-- Where a variable lives. -/
inductive Place
  | slot (n : Slot)
  | global (name : String)
  deriving DecidableEq

namespace Place

def slot? : Place → Option Slot
  | slot n => some n
  | global _ => none

def renumber (f : Slot → Slot) : Place → Place
  | slot n => slot (f n)
  | global name => global name

@[simp] theorem slot?_renumber (f : Slot → Slot) (p : Place) :
    (p.renumber f).slot? = p.slot?.map f := by
  cases p <;> rfl

def text : Place → String
  | slot n => s!"%{n}"
  | global name => s!"@{name}"

end Place

/-- A routine of the module, by its entry name, or one of the run-time library. -/
inductive CallTarget
  | routine (entry : String)
  | runtime (name : String)
  deriving DecidableEq

def CallTarget.text : CallTarget → String
  | .routine entry => entry
  | .runtime name => s!"[{name}]"

inductive Instr
  | const (value : Literal)
  | load (place : Place)
  | store (place : Place)
  /-- Pops `rank` subscripts and pushes the element. -/
  | loadElement (array : Place) (rank : Nat)
  /-- Pops the value, then `rank` subscripts. -/
  | storeElement (array : Place) (rank : Nat)
  /-- Traps if the subscript on top of the stack is outside the dimension, counted from zero. -/
  | checkBounds (array : Place) (dim : Nat)
  /-- Pops `rank` extents and makes a new array. -/
  | alloc (array : Place) (element : BaseType) (rank : Nat)
  | binary (op : BinaryOp) (operand : BaseType)
  | unary (op : UnaryOp) (operand : BaseType)
  /-- Turns an integer into a double. -/
  | convert
  | call (target : CallTarget) (argc : Nat) (returns : Bool)
  | dup
  | pop
  | label (l : Label)
  | branch (l : Label)
  /-- Branches if the popped truth value equals `flag`. -/
  | branchIf (flag : Bool) (l : Label)
  | ret (value : Bool)
  deriving DecidableEq

abbrev Code := List Instr

namespace Instr

/-- How many values are popped. -/
def pops : Instr → Nat
  | const _ | load _ | checkBounds .. | label _ | branch _ => 0
  | store _ | pop | unary .. | convert | dup | branchIf .. => 1
  | loadElement _ rank | alloc _ _ rank => rank
  | storeElement _ rank => rank + 1
  | binary .. => 2
  | call _ argc _ => argc
  | ret value => value.toNat

/-- How many values are pushed after that. -/
def pushes : Instr → Nat
  | const _ | load _ | loadElement .. | binary .. | unary .. | convert => 1
  | dup => 2
  | call _ _ returns => returns.toNat
  | _ => 0

def place? : Instr → Option Place
  | load p | store p | loadElement p _ | storeElement p _ | checkBounds p _ | alloc p _ _ => some p
  | _ => none

def slot? (i : Instr) : Option Slot := i.place?.bind Place.slot?

/-- The slot whose whole value is replaced; storing an element only changes an array's contents. -/
def defined? : Instr → Option Slot
  | store p | alloc p _ _ => p.slot?
  | _ => none

def used? : Instr → Option Slot
  | store _ | alloc .. => none
  | i => i.slot?

def target? : Instr → Option Label
  | branch l | branchIf _ l => some l
  | _ => none

def endsFlow : Instr → Bool
  | branch _ | ret _ => true
  | _ => false

def isBoundary : Instr → Bool
  | label _ | branch _ | branchIf .. | ret _ => true
  | _ => false

def renumber (f : Slot → Slot) : Instr → Instr
  | load p => load (p.renumber f)
  | store p => store (p.renumber f)
  | loadElement p rank => loadElement (p.renumber f) rank
  | storeElement p rank => storeElement (p.renumber f) rank
  | checkBounds p dim => checkBounds (p.renumber f) dim
  | alloc p element rank => alloc (p.renumber f) element rank
  | i => i

@[simp] theorem slot?_renumber (f : Slot → Slot) (i : Instr) :
    (i.renumber f).slot? = i.slot?.map f := by
  cases i <;> simp [renumber,slot?,place?]

end Instr
end StackCompiler
