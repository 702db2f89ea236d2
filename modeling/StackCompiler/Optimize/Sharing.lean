import StackCompiler.Optimize.Interval

/-! Slots shared by variables that are never live together.
The intervals are placed one after another: a slot whose interval has ended is taken over by the next
interval of the same type, the lowest such slot first. Parameters keep their slots, and slots that
are never referred to disappear. -/
namespace StackCompiler

namespace Sharing

structure Active where
  stop : Nat
  slot : Slot
  type : Ty

structure State where
  frame : Frame
  /-- New numbers of old slots, the latest first. -/
  mapping : List (Slot × Slot)
  free : List (Slot × Ty) := []
  active : List Active := []
  /-- Old slots that took over a slot, with its number, in order. -/
  shared : List (Slot × Slot) := []

def start (r : RoutineCode) : State :=
  let params := r.frame.take r.params
  { frame := params, mapping := (params.zipIdx.map fun p => (p.1.index,p.2)).reverse }

def State.expire (s : State) (position : Nat) : State :=
  let (ended,active) := s.active.partition (·.stop < position)
  { s with free := s.free ++ ended.map (fun a => (a.slot,a.type)), active }

def State.freeSlot? (s : State) (type : Ty) : Option Slot :=
  ((s.free.filter (·.2 == type)).map (·.1)).min?

def takeOver (old new : SlotInfo) : SlotInfo :=
  { new with
    names := new.names ++ old.names
    kind := if new.kind == .temporary then old.kind else new.kind }

def State.place (s : State) (x : Interval) : State :=
  let type := x.info.type
  let s := s.expire x.start
  match s.freeSlot? type with
  | some slot =>
    { frame := s.frame.modify slot (takeOver x.info)
      mapping := (x.slot,slot) :: s.mapping
      free := s.free.filter (· ≠ (slot,type))
      active := s.active ++ [⟨x.stop,slot,type⟩]
      shared := s.shared ++ [(x.slot,slot)] }
  | none =>
    let slot := s.frame.length
    { s with
      frame := s.frame ++ [{ x.info with index := slot }]
      mapping := (x.slot,slot) :: s.mapping
      active := s.active ++ [⟨x.stop,slot,type⟩] }

def State.rename (s : State) (old : Slot) : Slot := (s.mapping.lookup old).getD old

def allocate (r : RoutineCode) : State :=
  (r.intervals.filter (r.params ≤ ·.slot)).foldl State.place (start r)

end Sharing

/-- A routine with fewer slots, by how many, and which slots took over which. -/
structure Sharing where
  routine : RoutineCode
  saved : Nat
  shared : List (Slot × Slot)

def RoutineCode.shareSlots (r : RoutineCode) : Sharing :=
  let s := Sharing.allocate r
  { routine := { r with frame := s.frame, code := r.code.map (Instr.renumber s.rename) }
    saved := r.frame.length - s.frame.length
    shared := s.shared }

end StackCompiler
