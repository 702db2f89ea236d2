import StackCompiler.Listing
import StackCompiler.Lowering.Unit
import StackCompiler.Optimize.Passes

/-! From source units to modules and listings. -/
namespace StackCompiler

structure CompileOptions where
  passes : Passes := {}
  /-- Whether case matters, where that is not left to the language. -/
  caseSensitive : Option Bool := none

def CompileOptions.caseRule (o : CompileOptions) (u : SourceUnit) : Bool :=
  o.caseSensitive.getD u.language.caseSensitive

/-- The optimized module, or everything that is wrong with the unit. -/
def SourceUnit.compile (u : SourceUnit) (o : CompileOptions) : Except (List Diagnostic) Module :=
  (Lowering.run u (o.caseRule u)).2.map (·.optimize o.passes)

def SourceUnit.compileListing (u : SourceUnit) (o : CompileOptions) :
    Except (List Diagnostic) String :=
  match u.compile o with
  | .error ds => .error ds
  | .ok m => (m.listing false).mapError fun d => [d]

end StackCompiler
