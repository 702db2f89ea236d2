import StackCompiler.Code.Module
import StackCompiler.Optimize.Liveness

/-! Live intervals: for each slot of a frame the stretch of code from the first to the last
instruction that mentions it or before which it is live. -/
namespace StackCompiler

structure Interval where
  slot : Slot
  start : Nat
  stop : Nat
  info : SlotInfo
  deriving DecidableEq

namespace Interval

/-- The instruction mentions the slot, or the slot is live before it. -/
def occupied (s : Slot) (i : Instr) (live : SlotSet) : Bool :=
  live.contains s || i.slot? == some s

def positions (s : Slot) (code : Code) (live : List SlotSet) : List Nat :=
  ((code.zip live).zipIdx.filter fun p => occupied s p.1.1 p.1.2).map (·.2)

def of? (code : Code) (live : List SlotSet) (s : Slot) (info : SlotInfo) : Option Interval :=
  let places := positions s code live
  match places.head?, places.getLast? with
  | some start, some stop => some { slot := s, start, stop, info }
  | _, _ => none

def insert (x : Interval) : List Interval → List Interval
  | [] => [x]
  | y :: ys => if x.start ≤ y.start then x :: y :: ys else y :: insert x ys

end Interval

/-- The intervals of a routine by their starts; slots that start together stay in order. -/
def RoutineCode.intervals (r : RoutineCode) : List Interval :=
  let live := r.code.liveness
  (r.frame.zipIdx.filterMap fun p => Interval.of? r.code live p.2 p.1).foldr Interval.insert []

end StackCompiler
