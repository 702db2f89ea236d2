/-! Text without terminal control.
Control sequences, titles and device strings are taken out, and so are all control characters but
tabs and line breaks. A line break inside a sequence stands; what follows it is text again. -/
namespace StackCompiler.Text

inductive ControlMode
  | ground
  | escape
  /-- An escape with intermediate characters. -/
  | intermediate
  /-- A command with parameters, up to a letter. -/
  | command
  | deviceEntry
  | deviceParameter
  | deviceIntermediate
  /-- The body of a device string or of a private string. -/
  | body
  /-- A title, up to a bell. -/
  | title
  deriving DecidableEq

namespace ControlMode

def next (m : ControlMode) (n : Nat) : ControlMode :=
  if n = 0x18 ∨ n = 0x1a then ground
  else if n = 0x1b then escape
  else if n < 0x20 ∨ n = 0x7f then (if m = title ∧ n = 7 then ground else m)
  else
    match m with
    | ground | body | title => m
    | escape =>
      if n < 0x30 then intermediate
      else if n = 0x5b then command
      else if n = 0x5d then title
      else if n = 0x50 then deviceEntry
      else if n = 0x58 ∨ n = 0x5e ∨ n = 0x5f then body
      else ground
    | intermediate => if n < 0x30 then m else ground
    | command => if n < 0x40 then m else ground
    | deviceEntry =>
      if n < 0x30 then deviceIntermediate else if n < 0x40 then deviceParameter else body
    | deviceParameter => if n < 0x30 then deviceIntermediate else if n < 0x3c then m else body
    | deviceIntermediate => if n < 0x30 then m else body

/-- The mode after any other character that is taken out: a body ends with the byte 9C, also where
that is part of a longer character. -/
def nextWide (m : ControlMode) (n : Nat) : ControlMode :=
  let endsBody : Bool :=
    n % 64 == 28 || (0x800 ≤ n && n / 64 % 64 == 28) || (0x10000 ≤ n && n / 4096 % 64 == 28)
  if m = body ∧ endsBody then ground else m

def isBreak (n : Nat) : Bool := n == 9 || n == 10 || n == 12 || n == 13

def isText (n : Nat) : Bool := isBreak n || (0x20 ≤ n && n < 0x7f)

def shows (m : ControlMode) (n : Nat) : Bool :=
  match m with
  | ground => isText n
  | escape | intermediate | command => isBreak n
  | _ => false

end ControlMode

/-- The characters that stay; `reading` says that the one before stayed. -/
def plainChars : ControlMode → Bool → List Char → List Char
  | _, _, [] => []
  | m, reading, c :: rest =>
    let n := c.toNat
    if n < 0x80 then
      if (reading && ControlMode.isText n) || m.shows n then c :: plainChars m true rest
      else plainChars (m.next n) false rest
    else if reading || m == .ground then c :: plainChars .ground true rest
    else plainChars (m.nextWide n) false rest

def plain (s : String) : String :=
  String.ofList (plainChars .ground false s.toList)

end StackCompiler.Text
