import StackCompiler.Json.Fields
import StackCompiler.Json.Reader
import StackCompiler.SourceUnit

/-! Reading source units.
Records are objects; members with a default may be left out, unknown members are skipped. A choice
without content is its name, one with content an object with that name as the only key. -/
namespace StackCompiler

open Json (Levels Fields fields? oneOf? list?)

def BaseType.ofJson? : Levels → Json → Option BaseType :=
  oneOf? (BaseType.all.map fun b => (b.name,b))

def BinaryOp.ofJson? : Levels → Json → Option BinaryOp :=
  oneOf? (BinaryOp.all.map fun op => (op.name,op))

def UnaryOp.ofJson? : Levels → Json → Option UnaryOp :=
  oneOf? (UnaryOp.all.map fun op => (op.name,op))

def SymbolClass.ofJson? : Levels → Json → Option SymbolClass :=
  oneOf? [("Variable",.variable),("Constant",.constant),("Function",.function),
    ("Parameter",.parameter),("Label",.label)]

def Discipline.ofJson? : Levels → Json → Option Discipline :=
  oneOf? [("Open",.opened),("Closed",.closed)]

def Language.ofJson? : Levels → Json → Option Language :=
  oneOf? [("Fortran",.fortran),("Comal",.comal)]

def Extent.ofJson? : Levels → Json → Option Extent
  | _ + 1, .object [(some "Fixed",v)] => v.uint64?.map .fixed
  | n, v => oneOf? [("Dynamic",.dynamic)] n v

def Literal.ofJson? : Levels → Json → Option Literal
  | _ + 1, .object [(some "Integer",v)] => v.int64?.map .integer
  | _ + 1, .object [(some "Double",v)] => v.double?.map .double
  | _ + 1, .object [(some "Char",v)] => v.text?.map .char
  | _ + 1, .object [(some "Boolean",v)] => v.bool?.map .boolean
  | _, _ => none

def Json.Fields.line (fs : Fields) : Option Line :=
  fs.optional "line" noLine Json.int32?

mutual

def Expr.ofJson? : Levels → Json → Option Expr
  | n + 1, v => do
    let fs ← fields? ["kind","line"] v
    let line ← fs.line
    fs.required "kind" (Expr.ofKind? n line)
  | 0, _ => none

def Expr.ofKind? : Levels → Line → Json → Option Expr
  | n + 1, line, .object [(some "Literal",v)] => (Literal.ofJson? n v).map (.literal line)
  | _ + 1, line, .object [(some "Ident",v)] => v.text?.map (.ident line)
  | n + 2, line, .object [(some "Index",v)] => do
    let fs ← fields? ["name","indices"] v
    let name ← fs.required "name" Json.text?
    let indices ← fs.required "indices" (Expr.listOfJson? n)
    some (.index line name indices)
  | n + 2, line, .object [(some "Unary",v)] => do
    let fs ← fields? ["op","operand"] v
    let op ← fs.required "op" (UnaryOp.ofJson? n)
    let operand ← fs.required "operand" (Expr.ofJson? n)
    some (.unary line op operand)
  | n + 2, line, .object [(some "Binary",v)] => do
    let fs ← fields? ["left","op","right"] v
    let left ← fs.required "left" (Expr.ofJson? n)
    let op ← fs.required "op" (BinaryOp.ofJson? n)
    let right ← fs.required "right" (Expr.ofJson? n)
    some (.binary line left op right)
  | n + 2, line, .object [(some "Call",v)] => do
    let fs ← fields? ["name","args"] v
    let name ← fs.required "name" Json.text?
    let args ← fs.optional "args" [] (Expr.listOfJson? n)
    some (.call line name args)
  | _, _, _ => none

def Expr.listOfJson? : Levels → Json → Option (List Expr)
  | n + 1, .array items => items.mapM (Expr.ofJson? n)
  | _, _ => none

end

def Declaration.ofJson? : Levels → Json → Option Declaration
  | n + 1, v => do
    let fs ← fields? ["name","base","class","dimensions","value","extents","line"] v
    some
      { name := ← fs.required "name" Json.text?
        base := ← fs.required "base" (BaseType.ofJson? n)
        cls := ← fs.optional "class" .variable (SymbolClass.ofJson? n)
        dimensions := ← fs.optional "dimensions" [] (list? Extent.ofJson? n)
        value := ← fs.nullable "value" (Literal.ofJson? n)
        extents := ← fs.optional "extents" [] (Expr.listOfJson? n)
        line := ← fs.line }
  | 0, _ => none

def Target.ofJson? : Levels → Json → Option Target
  | n + 1, v => do
    let fs ← fields? ["name","indices"] v
    some
      { name := ← fs.required "name" Json.text?
        indices := ← fs.optional "indices" [] (Expr.listOfJson? n) }
  | 0, _ => none

mutual

def Stmt.ofJson? : Levels → Json → Option Stmt
  | n + 1, v => do
    let fs ← fields? ["kind","line"] v
    let line ← fs.line
    fs.required "kind" (Stmt.ofKind? n line)
  | 0, _ => none

def Stmt.ofKind? : Levels → Line → Json → Option Stmt
  | n + 1, line, .object [(some "Declare",v)] => (Declaration.ofJson? n v).map (.declare line)
  | n + 1, line, .object [(some "Import",v)] =>
    (list? (fun _ => Json.text?) n v).map (.share line)
  | n + 2, line, .object [(some "Assign",v)] => do
    let fs ← fields? ["target","value"] v
    let target ← fs.required "target" (Target.ofJson? n)
    let value ← fs.required "value" (Expr.ofJson? n)
    some (.assign line target value)
  | n + 2, line, .object [(some "Call",v)] => do
    let fs ← fields? ["name","args"] v
    let name ← fs.required "name" Json.text?
    let args ← fs.optional "args" [] (Expr.listOfJson? n)
    some (.call line name args)
  | n + 2, line, .object [(some "If",v)] => do
    let fs ← fields? ["cond","then_branch","else_branch"] v
    let cond ← fs.required "cond" (Expr.ofJson? n)
    let yes ← fs.required "then_branch" (Stmt.listOfJson? n)
    let no ← fs.optional "else_branch" [] (Stmt.listOfJson? n)
    some (.ifElse line cond yes no)
  | n + 2, line, .object [(some "While",v)] => do
    let fs ← fields? ["cond","body"] v
    let cond ← fs.required "cond" (Expr.ofJson? n)
    let body ← fs.required "body" (Stmt.listOfJson? n)
    some (.whileDo line cond body)
  | n + 2, line, .object [(some "Repeat",v)] => do
    let fs ← fields? ["body","until"] v
    let body ← fs.required "body" (Stmt.listOfJson? n)
    let cond ← fs.required "until" (Expr.ofJson? n)
    some (.repeatUntil line body cond)
  | n + 2, line, .object [(some "For",v)] => do
    let fs ← fields? ["var","from","to","step","body"] v
    let var ← fs.required "var" Json.text?
    let first ← fs.required "from" (Expr.ofJson? n)
    let last ← fs.required "to" (Expr.ofJson? n)
    let step ← fs.nullable "step" (Expr.ofJson? n)
    let body ← fs.required "body" (Stmt.listOfJson? n)
    some (.forTo line var first last step body)
  | _ + 1, line, .object [(some "Label",v)] => v.text?.map (.label line)
  | _ + 1, line, .object [(some "Goto",v)] => v.text?.map (.goto line)
  | _ + 1, line, .object [(some "Return",.null)] => some (.ret line none)
  | n + 1, line, .object [(some "Return",v)] => (Expr.ofJson? n v).map (.ret line ∘ some)
  | n + 1, line, .object [(some "Print",v)] => (Expr.listOfJson? n v).map (.print line)
  | n, line, v => oneOf? [("Stop",.stop line)] n v

def Stmt.listOfJson? : Levels → Json → Option (List Stmt)
  | n + 1, .array items => items.mapM (Stmt.ofJson? n)
  | _, _ => none

end

def Param.ofJson? : Levels → Json → Option Param
  | n + 1, v => do
    let fs ← fields? ["name","base","dimensions","line"] v
    some
      { name := ← fs.required "name" Json.text?
        base := ← fs.required "base" (BaseType.ofJson? n)
        dimensions := ← fs.optional "dimensions" [] (list? Extent.ofJson? n)
        line := ← fs.line }
  | 0, _ => none

mutual

def Routine.ofJson? : Levels → Json → Option Routine
  | n + 1, v => do
    let fs ← fields?
      ["name","discipline","params","return_type","body","routines","line"] v
    some
      { name := ← fs.required "name" Json.text?
        discipline := ← fs.optional "discipline" .opened (Discipline.ofJson? n)
        params := ← fs.optional "params" [] (list? Param.ofJson? n)
        returns := ← fs.optional "return_type" .void (BaseType.ofJson? n)
        body := ← fs.required "body" (Stmt.listOfJson? n)
        routines := ← fs.optional "routines" [] (Routine.listOfJson? n)
        line := ← fs.line }
  | 0, _ => none

def Routine.listOfJson? : Levels → Json → Option (List Routine)
  | n + 1, .array items => items.mapM (Routine.ofJson? n)
  | _, _ => none

end

namespace SourceUnit

def ofJson? : Levels → Json → Option SourceUnit
  | n + 1, v => do
    let fs ← fields? ["name","language","globals","main","routines"] v
    some
      { name := ← fs.required "name" Json.text?
        language := ← fs.required "language" (Language.ofJson? n)
        globals := ← fs.optional "globals" [] (list? Declaration.ofJson? n)
        main := ← fs.optional "main" [] (Stmt.listOfJson? n)
        routines := ← fs.optional "routines" [] (Routine.listOfJson? n) }
  | 0, _ => none

def maxLevels : Levels := 127

def parse? (s : String) : Option SourceUnit :=
  (Json.parse? s).bind (ofJson? maxLevels)

end SourceUnit
end StackCompiler
