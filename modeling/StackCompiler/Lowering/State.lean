import StackCompiler.Code.Frame
import StackCompiler.Intrinsic
import StackCompiler.Scope
import StackCompiler.Typing

/-! What is known while the body of a routine is turned into code.
Turning a tree into code returns the code. Scopes, frame, label counter and recorded diagnostics are
state, and they keep what was done to them before a failure. -/
namespace StackCompiler

def Coercion.code : Coercion → Code
  | .keep => []
  | .toDouble => [.convert]

namespace Lowering

/-- What stays fixed in a routine: the name of its code, the depth of its scope (the main program
has depth zero), what it returns, the name under which its result is assigned, and its labels by
key. -/
structure Routine where
  language : Language
  entry : String
  depth : Nat
  returns : BaseType
  resultName : Option String := none
  labels : List (String × Label) := []

structure State where
  scopes : ScopeStack
  frame : Frame := []
  nextLabel : Label := 0
  errors : List Diagnostic := []

/-- A step that may fail with a diagnostic; the state survives the failure. -/
abbrev Lower := ExceptT Diagnostic (StateM State)

structure Value where
  code : Code
  type : Ty

namespace Lower

def fail {α : Type} (line : Line) (cause : Cause) : Lower α := throw ⟨line,cause⟩

def lift {α : Type} : Except Diagnostic α → Lower α
  | .ok a => pure a
  | .error d => throw d

def freshLabel : Lower Label := do
  let s ← get
  set { s with nextLabel := s.nextLabel + 1 }
  pure s.nextLabel

def record (d : Diagnostic) : Lower Unit :=
  modify fun s => { s with errors := s.errors ++ [d] }

def localSlot (name : String) (type : Ty) : Lower Slot := do
  let s ← get
  let (slot,frame) := s.frame.localVar name type
  set { s with frame }
  pure slot

def tempSlot (type : Ty) : Lower Slot := do
  let s ← get
  set { s with frame := s.frame.temp type }
  pure s.frame.length

def withScopes {α : Type} (step : ScopeStack → Except Diagnostic α × ScopeStack) : Lower α := do
  let s ← get
  let (result,scopes) := step s.scopes
  set { s with scopes }
  lift result

/-- The symbol of a name, which is thereby referred to. -/
def resolve (name : String) (line : Line) : Lower (Symbol × Nat) :=
  withScopes fun scopes =>
    match scopes.resolve name with
    | none => (.error ⟨line,.unresolvedSymbol name⟩,scopes)
    | some found => (.ok found,scopes.touch found line)

/-- Code that fails is dropped and its diagnostic recorded, unless that is fatal. -/
def recover (step : Lower Code) : Lower Code :=
  tryCatch step fun d => do
    if d.isFatal then throw d
    record d
    pure []

end Lower

end Lowering
end StackCompiler
