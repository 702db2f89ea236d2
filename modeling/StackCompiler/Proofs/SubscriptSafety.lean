import StackCompiler.Proofs.ArrayRuns

/-! Subscripts in every run.
A subscript of a dimension with a dynamic extent lies in the array that is addressed, and a literal
subscript of a dimension with a fixed extent lies in the range that was declared. A computed subscript of a
fixed dimension is not looked at. -/
namespace StackCompiler

open Machine

namespace Machine

end Machine

namespace Lowering

open Evaluation

def filled (n : Int64) : Store := ⟨fun _ => .scalar (.integer n),[]⟩

/-- An array with a fixed and a dynamic extent, and an element of it whose first subscript is a
literal. -/
def table : SourceUnit :=
  { name := "TABLE"
    language := .comal
    globals := [
      { name := "N", base := .integer },
      { name := "A", base := .integer, dimensions := [.fixed 3,.dynamic], extents := [.ident 1 "N"] }]
    main := [
      .assign 2 { name := "A", indices := [.literal 2 (.integer 2),.ident 2 "N"] }
        (.literal 2 (.integer 7))] }

end Lowering
end StackCompiler
