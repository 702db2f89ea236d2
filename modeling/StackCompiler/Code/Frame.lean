import StackCompiler.Code.Instr

/-! Frames: the slots of a routine.
While a routine is being put into code its frame grows: parameters first, then locals in the order
of their first use, and nameless temporaries. -/
namespace StackCompiler

inductive SlotKind
  | parameter | localVar | temporary
  deriving DecidableEq

def SlotKind.text : SlotKind → String
  | .parameter => "param"
  | .localVar => "local"
  | .temporary => "temp"

/-- One slot; `names` are those of all variables that share it. -/
structure SlotInfo where
  index : Slot
  type : Ty
  kind : SlotKind
  names : List String := []
  deriving DecidableEq

def SlotInfo.text (s : SlotInfo) : String :=
  let names := if s.names.isEmpty then "" else " " ++ "/".intercalate s.names
  s!"%{s.index} {s.kind.text} {s.type.text}{names}"

abbrev Frame := List SlotInfo

namespace Frame

def push (f : Frame) (type : Ty) (kind : SlotKind) (names : List String) : Frame :=
  f ++ [{ index := f.length, type, kind, names }]

@[simp] theorem length_push (f : Frame) (type : Ty) (kind : SlotKind) (names : List String) :
    (f.push type kind names).length = f.length + 1 := by
  simp [push]

def param (f : Frame) (name : String) (type : Ty) : Frame :=
  f.push type .parameter [name]

def temp (f : Frame) (type : Ty) : Frame :=
  f.push type .temporary []

def slot? (f : Frame) (name : String) : Option Slot :=
  (f.reverse.find? (·.names == [name])).map (·.index)

/-- The slot of a named local, a new one at its first use. -/
def localVar (f : Frame) (name : String) (type : Ty) : Slot × Frame :=
  match f.slot? name with
  | some slot => (slot,f)
  | none => (f.length,f.push type .localVar [name])

end Frame
end StackCompiler
