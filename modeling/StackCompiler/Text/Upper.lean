import StackCompiler.Text.CaseRuns

/-! Capital letters. A letter may become several: a sharp s gives two. -/
namespace StackCompiler.Text

/-- The capital form of one character; a character without one stays. -/
def capital (c : Char) : List Char :=
  match caseRuns.find? (·.covers c.toNat) with
  | some run => [Char.ofNat (run.map c.toNat)]
  | none =>
    match expansions.lookup c.toNat with
    | some form => form.map Char.ofNat
    | none => [c]

def upper (s : String) : String :=
  String.ofList (s.toList.flatMap capital)

end StackCompiler.Text
