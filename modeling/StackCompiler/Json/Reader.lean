import StackCompiler.Json.Basic

/-! Reading JSON text.
The grammar is the strict one: no comments, no trailing commas, no leading zeros, no raw control
characters in strings, and nothing but blanks around the one value. -/
namespace StackCompiler.Json
namespace Reader

abbrev Chars := List Char

def isBlank (c : Char) : Bool :=
  c == ' ' || c == '\n' || c == '\t' || c == '\r'

def skipBlanks (cs : Chars) : Chars := cs.dropWhile isBlank

def digit (c : Char) : Nat := c.toNat - '0'.toNat

def digits (cs : Chars) : List Nat × Chars :=
  ((cs.takeWhile Char.isDigit).map digit,cs.dropWhile Char.isDigit)

def digits1? (cs : Chars) : Option (List Nat × Chars) :=
  match digits cs with
  | ([],_) => none
  | r => some r

def whole? (cs : Chars) : Option (List Nat × Chars) :=
  match digits cs with
  | ([],_) => none
  | (0 :: _ :: _,_) => none
  | r => some r

def fraction? : Chars → Option (Option (List Nat) × Chars)
  | '.' :: cs => (digits1? cs).map fun r => (some r.1,r.2)
  | cs => some (none,cs)

def exponentSign : Chars → Bool × Chars
  | '+' :: cs => (false,cs)
  | '-' :: cs => (true,cs)
  | cs => (false,cs)

def exponent? : Chars → Option (Option Int × Chars)
  | c :: cs =>
    if c == 'e' || c == 'E' then
      let (negative,rest) := exponentSign cs
      (digits1? rest).map fun r =>
        let n : Int := Number.ofDigits r.1
        (some (if negative then -n else n),r.2)
    else some (none,c :: cs)
  | [] => some (none,[])

def number? (negative : Bool) (cs : Chars) : Option (Json × Chars) := do
  let (whole,cs) ← whole? cs
  let (fraction,cs) ← fraction? cs
  let (exponent,cs) ← exponent? cs
  some (number { negative, whole, fraction, exponent },cs)

/-- A piece of a string token: a character, or a 16-bit unit given by its number. -/
inductive Piece
  | char (c : Char)
  | unit (n : Nat)

def hexValue? (c : Char) : Option Nat :=
  if c.isDigit then some (digit c)
  else if 'a' ≤ c && c ≤ 'f' then some (c.toNat - 'a'.toNat + 10)
  else if 'A' ≤ c && c ≤ 'F' then some (c.toNat - 'A'.toNat + 10)
  else none

def hex4? (a b c d : Char) : Option Nat := do
  some (4096 * (← hexValue? a) + 256 * (← hexValue? b) + 16 * (← hexValue? c) + (← hexValue? d))

def shortEscape? (c : Char) : Option Char :=
  [('"','"'),('\\','\\'),('/','/'),('b','\x08'),('f','\x0c'),('n','\n'),('r','\r'),
    ('t','\t')].lookup c

def pieces? : Chars → Option (List Piece × Chars)
  | [] => none
  | '"' :: cs => some ([],cs)
  | '\\' :: 'u' :: a :: b :: c :: d :: cs =>
    match hex4? a b c d, pieces? cs with
    | some n, some (rest,cs) => some (.unit n :: rest,cs)
    | _, _ => none
  | '\\' :: e :: cs =>
    match shortEscape? e, pieces? cs with
    | some c, some (rest,cs) => some (.char c :: rest,cs)
    | _, _ => none
  | c :: cs =>
    if c.toNat < 32 || c == '\\' then none
    else (pieces? cs).map fun r => (.char c :: r.1,r.2)

def isHigh (n : Nat) : Bool := 0xd800 ≤ n && n < 0xdc00
def isLow (n : Nat) : Bool := 0xdc00 ≤ n && n < 0xe000

/-- The characters of the pieces; a high unit needs a low one right after it. -/
def decode? : List Piece → Option (List Char)
  | [] => some []
  | .char c :: rest => (decode? rest).map (c :: ·)
  | .unit h :: .unit l :: rest =>
    if isHigh h && isLow l then
      (decode? rest).map (Char.ofNat (0x10000 + (h - 0xd800) * 0x400 + (l - 0xdc00)) :: ·)
    else if isHigh h || isLow h then none
    else (decode? (.unit l :: rest)).map (Char.ofNat h :: ·)
  | .unit n :: rest =>
    if isHigh n || isLow n then none else (decode? rest).map (Char.ofNat n :: ·)

def text? (cs : Chars) : Option (Text × Chars) :=
  (pieces? cs).map fun r => ((decode? r.1).map String.ofList,r.2)

def after? : Chars → Chars → Option Chars
  | [], cs => some cs
  | w :: ws, c :: cs => if w == c then after? ws cs else none
  | _ :: _, [] => none

mutual

/-- A value, and what follows it; the number bounds the nesting of calls. -/
def value? : Nat → Chars → Option (Json × Chars)
  | 0, _ => none
  | n + 1, cs =>
    match skipBlanks cs with
    | '\x7b' :: cs =>
      match skipBlanks cs with
      | '\x7d' :: cs => some (object [],cs)
      | cs => (members? n cs).map fun r => (object r.1,r.2)
    | '[' :: cs =>
      match skipBlanks cs with
      | ']' :: cs => some (array [],cs)
      | cs => (items? n cs).map fun r => (array r.1,r.2)
    | '"' :: cs => (text? cs).map fun r => (string r.1,r.2)
    | 'n' :: cs => (after? ['u','l','l'] cs).map fun cs => (null,cs)
    | 't' :: cs => (after? ['r','u','e'] cs).map fun cs => (bool true,cs)
    | 'f' :: cs => (after? ['a','l','s','e'] cs).map fun cs => (bool false,cs)
    | '-' :: cs => number? true cs
    | cs => number? false cs

def items? : Nat → Chars → Option (List Json × Chars)
  | 0, _ => none
  | n + 1, cs =>
    match value? n cs with
    | none => none
    | some (item,cs) =>
      match skipBlanks cs with
      | ',' :: cs => (items? n cs).map fun r => (item :: r.1,r.2)
      | ']' :: cs => some ([item],cs)
      | _ => none

def members? : Nat → Chars → Option (List (Text × Json) × Chars)
  | 0, _ => none
  | n + 1, cs =>
    match member? n cs with
    | none => none
    | some (member,cs) =>
      match skipBlanks cs with
      | ',' :: cs => (members? n cs).map fun r => (member :: r.1,r.2)
      | '\x7d' :: cs => some ([member],cs)
      | _ => none

def member? : Nat → Chars → Option ((Text × Json) × Chars)
  | 0, _ => none
  | n + 1, cs =>
    match skipBlanks cs with
    | '"' :: cs =>
      match text? cs with
      | none => none
      | some (key,cs) =>
        match skipBlanks cs with
        | ':' :: cs => (value? n cs).map fun r => ((key,r.1),r.2)
        | _ => none
    | _ => none

end

end Reader

open Reader in
/-- The one value of a text. Every third call at least consumes a character, so the bound is never
reached. -/
def parse? (s : String) : Option Json :=
  let cs := s.toList
  match value? (3 * cs.length + 3) cs with
  | some (v,rest) => if (skipBlanks rest).isEmpty then some v else none
  | none => none

end StackCompiler.Json
