import StackCompiler.Text.Invisible
import StackCompiler.Text.Joining

/-! Which characters a quoted text shows as they are. -/
namespace StackCompiler.Text

/-- A character is shown as it is unless it has no form of its own or joins its neighbour. -/
def isVisible (c : Char) : Bool :=
  (c.val < 0x7f && 0x20 ≤ c.val) ||
    !(invisible.contain c.toNat || joining.contain c.toNat)

end StackCompiler.Text
