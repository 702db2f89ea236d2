import StackCompiler.Decimal.Shortest

/-! How doubles are written.
The shortest digits that read back; positional from a ten-thousandth up to, not including, ten to
the sixteenth, with at least one digit after the point; otherwise one digit, the others after the
point, and the power of ten. -/
namespace StackCompiler.Decimal

/-- Where positional writing starts and ends, as exponents of the leading digit. -/
structure Layout where
  least : Int
  most : Int

def layout : Layout := ⟨-4,15⟩

def positional (digits : List Char) (e : Int) : List Char :=
  if e < 0 then '0' :: '.' :: (List.replicate ((-e).toNat - 1) '0' ++ digits)
  else
    let whole := digits.take (e.toNat + 1)
    let rest := digits.drop (e.toNat + 1)
    whole ++ List.replicate (e.toNat + 1 - whole.length) '0' ++
      '.' :: (if rest.isEmpty then ['0'] else rest)

def scientific (digits : List Char) (e : Int) : List Char :=
  let rest := digits.drop 1
  digits.take 1 ++ (if rest.isEmpty then [] else '.' :: rest) ++ 'e' :: (toString e).toList

def write (c : Nat) (g : Int) : List Char :=
  let digits := Nat.toDigits 10 c
  let e := (digits.length : Int) + g - 1
  if layout.least ≤ e && e ≤ layout.most then positional digits e else scientific digits e

def text (x : Float) : String :=
  let sign := if x.toBits < 0x8000000000000000 then [] else ['-']
  if x.isNaN then "NaN"
  else if x.isInf then String.ofList (sign ++ ['i','n','f'])
  else if x == 0.0 then String.ofList (sign ++ ['0','.','0'])
  else
    let (c,g) := (Binary.ofBits x.toBits).shortest
    String.ofList (sign ++ write c g)

end StackCompiler.Decimal
