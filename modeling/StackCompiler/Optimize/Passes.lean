import StackCompiler.Optimize.Reuse
import StackCompiler.Optimize.Sharing
import StackCompiler.Optimize.Window

/-! The passes over a routine, in the order sharing of slots, reuse of values, windows. -/
namespace StackCompiler

structure Passes where
  lifetime : Bool := true
  cse : Bool := true
  peephole : Bool := true
  deriving DecidableEq

namespace Passes

def none : Passes := ⟨false,false,false⟩

def shared (p : Passes) (r : RoutineCode) : RoutineCode :=
  if p.lifetime then r.shareSlots.routine else r

def reused (p : Passes) (r : RoutineCode) : RoutineCode :=
  if p.cse then (p.shared r).reuseValues.routine else p.shared r

def optimize (p : Passes) (r : RoutineCode) : RoutineCode :=
  let r := p.reused r
  if p.peephole then { r with code := r.code.simplify.code } else r

end Passes

def Module.optimize (m : Module) (p : Passes) : Module :=
  { m with routines := m.routines.map p.optimize }

end StackCompiler
