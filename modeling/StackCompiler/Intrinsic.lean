import StackCompiler.Symbol

/-! Functions that the languages provide, each carried out by a routine of the run-time library. -/
namespace StackCompiler

structure Intrinsic where
  name : String
  params : List BaseType
  returns : BaseType
  runtime : String
  deriving DecidableEq

namespace Intrinsic

def symbol (i : Intrinsic) (line : Line) : Symbol :=
  { name := i.name, key := i.name, type := .scalar i.returns, cls := .function, line,
    params := i.params.map Ty.scalar, entry := some i.runtime }

def table : Language → List Intrinsic
  | .comal =>
    [⟨"ABS",[.double],.double,"rt.abs"⟩,
      ⟨"SQR",[.double],.double,"rt.sqrt"⟩,
      ⟨"INT",[.double],.integer,"rt.floor"⟩,
      ⟨"LEN",[.char],.integer,"rt.len"⟩,
      ⟨"CHR$",[.integer],.char,"rt.chr"⟩,
      ⟨"ORD",[.char],.integer,"rt.ord"⟩,
      ⟨"RND",[],.double,"rt.rnd"⟩]
  | .fortran =>
    [⟨"ABS",[.double],.double,"rt.abs"⟩,
      ⟨"SQRT",[.double],.double,"rt.sqrt"⟩,
      ⟨"INT",[.double],.integer,"rt.trunc"⟩,
      ⟨"MOD",[.integer,.integer],.integer,"rt.mod"⟩,
      ⟨"LEN",[.char],.integer,"rt.len"⟩,
      ⟨"CHAR",[.integer],.char,"rt.chr"⟩,
      ⟨"ICHAR",[.char],.integer,"rt.ord"⟩]

def find? (language : Language) (name : String) : Option Intrinsic :=
  (table language).find? (·.name == Text.upper name)

end Intrinsic
end StackCompiler
