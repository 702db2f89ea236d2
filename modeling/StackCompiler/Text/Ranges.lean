/-! Sets of characters as ranges of code points. -/
namespace StackCompiler.Text

abbrev Ranges := List (Nat × Nat)

namespace Ranges

def contain (ranges : Ranges) (n : Nat) : Bool :=
  ranges.any fun r => r.1 ≤ n && n ≤ r.2

end Ranges
end StackCompiler.Text
