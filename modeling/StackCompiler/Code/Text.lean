import StackCompiler.Code.Instr

/-! Instructions as lines of a listing, and as they appear in the verbose log. -/
namespace StackCompiler

def Instr.column (mnemonic : String) : String :=
  mnemonic ++ String.ofList (List.replicate (8 - mnemonic.length) ' ')

def Instr.line (mnemonic : String) (operands : List String) : String :=
  "\t" ++ column mnemonic ++ ", ".intercalate operands

def Instr.text : Instr → String
  | const value => line "ldc" [value.text]
  | load p => line "ld" [p.text]
  | store p => line "st" [p.text]
  | loadElement p rank => line "lde" [p.text,toString rank]
  | storeElement p rank => line "ste" [p.text,toString rank]
  | checkBounds p dim => line "bounds" [p.text,toString (dim + 1)]
  | alloc p element rank => line "alloc" [p.text,element.text,toString rank]
  | binary op operand => line op.mnemonic [operand.text]
  | unary op operand => line op.mnemonic [operand.text]
  | convert => "\ti2d"
  | call target argc returns =>
    line "call" ([target.text,toString argc] ++ if returns then ["value"] else [])
  | dup => "\tdup"
  | pop => "\tpop"
  | label l => s!"L{l}:"
  | branch l => line "jmp" [s!"L{l}"]
  | branchIf true l => line "jt" [s!"L{l}"]
  | branchIf false l => line "jf" [s!"L{l}"]
  | ret true => line "ret" ["value"]
  | ret false => "\tret"

def Literal.logText : Literal → String
  | integer n => s!"Integer({n.toInt})"
  | double x => s!"Double({Decimal.text x})"
  | char s => s!"Char({Text.quoted s})"
  | boolean b => s!"Boolean({b})"

def Place.logText : Place → String
  | slot n => s!"Local({n})"
  | global name => s!"Global({Text.quoted name})"

def Instr.logText : Instr → String
  | const value => s!"LoadConst({value.logText})"
  | load (.slot n) => s!"LoadLocal({n})"
  | load (.global name) => s!"LoadGlobal({Text.quoted name})"
  | store (.slot n) => s!"Store({n})"
  | store (.global name) => s!"StoreGlobal({Text.quoted name})"
  | loadElement p rank => s!"LoadElement({p.logText}, {rank})"
  | storeElement p rank => s!"StoreElement({p.logText}, {rank})"
  | checkBounds p dim => s!"CheckBounds({p.logText}, {dim})"
  | alloc p element rank => s!"AllocArray({p.logText}, {element.name}, {rank})"
  | binary op operand => s!"Binary({op.name}, {operand.name})"
  | unary op operand => s!"Unary({op.name}, {operand.name})"
  | convert => "Convert(IntegerToDouble)"
  | call (.routine entry) argc returns =>
    s!"Call(Routine({Text.quoted entry}), {argc}, {returns})"
  | call (.runtime name) argc returns => s!"Call(Runtime({Text.quoted name}), {argc}, {returns})"
  | dup => "Dup"
  | pop => "Pop"
  | label l => s!"Label({l})"
  | branch l => s!"Branch({l})"
  | branchIf flag l => s!"BranchIf({flag}, {l})"
  | ret value => s!"Return({value})"

def Code.logText (code : Code) : String :=
  "[" ++ ", ".intercalate (code.map Instr.logText) ++ "]"

end StackCompiler
