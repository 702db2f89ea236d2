import StackCompiler.Code.Module

/-! Repeated computations within a basic block.
The operand stack is followed with symbolic values. A binary operation on the same values as an
earlier one, none of whose variables has been written since, is replaced by a load of a new slot
that keeps the first result. -/
namespace StackCompiler

/-- A value by the way it is computed from constants and variables. -/
inductive ValueKey
  | const (value : Literal)
  | place (p : Place)
  | unary (op : UnaryOp) (operand : BaseType) (x : ValueKey)
  | convert (x : ValueKey)
  | binary (op : BinaryOp) (operand : BaseType) (x y : ValueKey)
  deriving DecidableEq

def ValueKey.mentions (p : Place) : ValueKey → Bool
  | const _ => false
  | place q => p == q
  | unary _ _ x | convert x => x.mentions p
  | binary _ _ x y => x.mentions p || y.mentions p

/-- A later evaluation from `start` to `stop` of what was first computed at `first`. -/
structure Repeat where
  start : Nat
  stop : Nat
  first : Nat
  deriving DecidableEq

namespace Reuse

/-- A value on the stack, if it is known, and where its computation starts. -/
structure Entry where
  value : Option ValueKey
  start : Nat

/-- The stack from the top down, the operations whose results could be kept with the positions they
were computed at, and the repeats so far. -/
structure Scan where
  stack : List Entry := []
  available : List (ValueKey × Nat) := []
  repeats : List Repeat := []

namespace Scan

def push (s : Scan) (value : Option ValueKey) (start : Nat) : Scan :=
  { s with stack := ⟨value,start⟩ :: s.stack }

def top (s : Scan) (position : Nat) : Entry := s.stack.headD ⟨none,position⟩

def drop (s : Scan) (n : Nat) : Scan := { s with stack := s.stack.drop n }

/-- Pops and pushes as the instruction does, with nothing known about the results. -/
def effect (s : Scan) (i : Instr) (position : Nat) : Scan :=
  { s with stack := List.replicate i.pushes ⟨none,position⟩ ++ s.stack.drop i.pops }

def written (s : Scan) (p : Place) : Scan :=
  { s with available := s.available.filter fun a => !a.1.mentions p }

/-- An operation with a known result is a repeat, or becomes available. -/
def note (s : Scan) (key : Option ValueKey) (start position : Nat) : Scan :=
  match key with
  | none => s
  | some key =>
    match s.available.lookup key with
    | some first => { s with repeats := s.repeats ++ [⟨start,position,first⟩] }
    | none => { s with available := s.available ++ [(key,position)] }

def step (s : Scan) (i : Instr) (position : Nat) : Scan :=
  match i with
  | .const value => s.push (some (.const value)) position
  | .load p => s.push (some (.place p)) position
  | .unary op operand =>
    let x := s.top position
    (s.drop 1).push (x.value.map (.unary op operand)) x.start
  | .convert =>
    let x := s.top position
    (s.drop 1).push (x.value.map .convert) x.start
  | .binary op operand =>
    let y := s.top position
    let x := (s.drop 1).top y.start
    let key := x.value.bind fun kx => y.value.map fun ky => .binary op operand kx ky
    ((s.drop 2).note key x.start position).push key x.start
  | .store p | .alloc p _ _ => (s.effect i position).written p
  | .call .. => { s.effect i position with available := [] }
  | .label _ | .branch _ | .branchIf .. | .ret _ => { s with stack := [], available := [] }
  | .loadElement .. | .storeElement .. | .checkBounds .. | .dup | .pop => s.effect i position

end Scan

/-- All repeats, in the order of their ends. -/
def repeats (code : Code) : List Repeat :=
  (code.zipIdx.foldl (fun s p => s.step p.1 p.2) ({} : Scan)).repeats

/-- Puts a repeat before those that start later, or start with it and are no longer. -/
def insert (x : Repeat) : List Repeat → List Repeat
  | [] => [x]
  | y :: ys =>
    if x.start < y.start ∨ (x.start = y.start ∧ y.stop ≤ x.stop) then x :: y :: ys
    else y :: insert x ys

/-- Drops every repeat that starts inside the last one kept. -/
def outermost : Option Nat → List Repeat → List Repeat
  | _, [] => []
  | none, x :: xs => x :: outermost (some x.stop) xs
  | some stop, x :: xs =>
    if x.start ≤ stop then outermost (some stop) xs else x :: outermost (some x.stop) xs

def Repeat.covers (x : Repeat) (position : Nat) : Bool := x.start ≤ position && position ≤ x.stop

/-- The repeats to replace: outermost ones whose first evaluation stays. -/
def kept (code : Code) : List Repeat :=
  let xs := outermost none ((repeats code).foldr insert [])
  xs.filter fun x => !xs.any fun y => Repeat.covers y x.first

def insertPosition (n : Nat) : List Nat → List Nat
  | [] => [n]
  | x :: xs => if n < x then n :: x :: xs else if n = x then x :: xs else x :: insertPosition n xs

/-- The first evaluations whose results are kept, in order, with the types of the results. -/
def sources (code : Code) (xs : List Repeat) : List (Nat × BaseType) :=
  ((xs.map (·.first)).foldr insertPosition []).filterMap fun (first : Nat) =>
    match code[first]? with
    | some (.binary op operand) => some (first,op.result operand)
    | _ => none

/-- What stands for an instruction: nothing or a load inside a repeat, and the result is kept after a
first evaluation. -/
def replace (xs : List Repeat) (slots : List (Nat × Slot)) (position : Nat) (i : Instr) : Code :=
  match xs.find? (Repeat.covers · position) with
  | some x =>
    if x.start = position then ((slots.lookup x.first).toList.map fun n => .load (.slot n)) else []
  | none =>
    match slots.lookup position with
    | some slot => [i,.dup,.store (.slot slot)]
    | none => [i]

end Reuse

/-- A routine without repeated computations, and the repeats with the slots they load. -/
structure Reuse where
  routine : RoutineCode
  replaced : List (Repeat × Slot)

def RoutineCode.reuseValues (r : RoutineCode) : Reuse :=
  let xs := Reuse.kept r.code
  let sources := Reuse.sources r.code xs
  let slots := sources.zipIdx.map fun p => (p.1.1,r.frame.length + p.2)
  let frame := sources.foldl (fun (f : Frame) p => f.temp (.scalar p.2)) r.frame
  let code := (r.code.zipIdx.map fun p => Reuse.replace xs slots p.2 p.1).flatten
  { routine := { r with frame, code }
    replaced := xs.filterMap fun x => (slots.lookup x.first).map (x,·) }

end StackCompiler
