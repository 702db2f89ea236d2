import StackCompiler.Json.Basic

/-! Writing JSON text, without blanks. -/
namespace StackCompiler.Json
namespace Writer

abbrev Chars := List Char

def digitsText (digits : List Nat) : Chars :=
  digits.map fun d => Char.ofNat ('0'.toNat + d)

def numberText (n : Number) : Chars :=
  (if n.negative then ['-'] else []) ++ digitsText n.whole ++
    (match n.fraction with
      | none => []
      | some ds => '.' :: digitsText ds) ++
    (match n.exponent with
      | none => []
      | some e => 'e' :: (toString e).toList)

def hexDigit (n : Nat) : Char := Nat.digitChar (n % 16)

/-- Quotes, backslashes and controls are escaped, all else stands as it is. -/
def escape (c : Char) : Chars :=
  if c == '"' then ['\\','"']
  else if c == '\\' then ['\\','\\']
  else if c.toNat < 32 then ['\\','u','0','0',hexDigit (c.toNat / 16),hexDigit c.toNat]
  else [c]

/-- A string token; one that is no text is written as half of a surrogate pair. -/
def token : Text → Chars
  | some s => '"' :: (s.toList.flatMap escape ++ ['"'])
  | none => ['"','\\','u','d','8','0','0','"']

mutual

def chars : Json → Chars
  | null => ['n','u','l','l']
  | bool true => ['t','r','u','e']
  | bool false => ['f','a','l','s','e']
  | number n => numberText n
  | string s => token s
  | array items => '[' :: (itemChars items ++ [']'])
  | object members => '\x7b' :: (memberChars members ++ ['\x7d'])

def itemChars : List Json → Chars
  | [] => []
  | [item] => chars item
  | item :: rest => chars item ++ ',' :: itemChars rest

def memberChars : List (Text × Json) → Chars
  | [] => []
  | [(key,value)] => token key ++ ':' :: chars value
  | (key,value) :: rest => token key ++ ':' :: (chars value ++ ',' :: memberChars rest)

end

end Writer

def render (v : Json) : String := String.ofList (Writer.chars v)

end StackCompiler.Json
