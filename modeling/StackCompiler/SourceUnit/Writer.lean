import StackCompiler.Json.Basic
import StackCompiler.SourceUnit

/-! Writing source units as JSON values, with every member present.
How a double is written is left to the caller; `Json.ofDouble` writes its shortest decimal. -/
namespace StackCompiler

def Json.ofDouble (x : Float) : Json :=
  let (c,g) := if x == 0.0 then (0,0) else (Decimal.Binary.ofBits x.toBits).shortest
  .number
    { negative := 0x8000000000000000 ≤ x.toBits, whole := Json.Number.digits c, exponent := some g }

def Json.tagged (name : String) (content : Json) : Json := .record [(name,content)]

def BaseType.toJson (b : BaseType) : Json := .str b.name

def BinaryOp.toJson (op : BinaryOp) : Json := .str op.name

def UnaryOp.toJson (op : UnaryOp) : Json := .str op.name

def SymbolClass.toJson : SymbolClass → Json
  | .variable => .str "Variable"
  | .constant => .str "Constant"
  | .function => .str "Function"
  | .parameter => .str "Parameter"
  | .label => .str "Label"

def Discipline.toJson : Discipline → Json
  | .opened => .str "Open"
  | .closed => .str "Closed"

def Language.toJson (l : Language) : Json := .str l.text

def Extent.toJson : Extent → Json
  | .fixed n => .tagged "Fixed" (.nat n.toNat)
  | .dynamic => .str "Dynamic"

def Line.toJson (line : Line) : Json := .int line.toInt

section

variable (double : Float → Json)

def Literal.toJson : Literal → Json
  | .integer n => .tagged "Integer" (.int n.toInt)
  | .double x => .tagged "Double" (double x)
  | .char s => .tagged "Char" (.str s)
  | .boolean b => .tagged "Boolean" (.bool b)

def Json.located (kind : Json) (line : Line) : Json :=
  .record [("kind",kind),("line",Line.toJson line)]

mutual

def Expr.toJson : Expr → Json
  | .literal line value => .located (.tagged "Literal" (value.toJson double)) line
  | .ident line name => .located (.tagged "Ident" (.str name)) line
  | .index line name indices =>
    .located (.tagged "Index" (.record
      [("name",.str name),("indices",.array (Expr.listToJson indices))])) line
  | .unary line op operand =>
    .located (.tagged "Unary" (.record
      [("op",op.toJson),("operand",Expr.toJson operand)])) line
  | .binary line left op right =>
    .located (.tagged "Binary" (.record
      [("left",Expr.toJson left),("op",op.toJson),("right",Expr.toJson right)])) line
  | .call line name args =>
    .located (.tagged "Call" (.record
      [("name",.str name),("args",.array (Expr.listToJson args))])) line

def Expr.listToJson : List Expr → List Json
  | [] => []
  | e :: rest => Expr.toJson e :: Expr.listToJson rest

end

def Declaration.toJson (d : Declaration) : Json :=
  .record
    [("name",.str d.name),("base",d.base.toJson),("class",d.cls.toJson),
      ("dimensions",.list Extent.toJson d.dimensions),
      ("value",.option (Literal.toJson double) d.value),
      ("extents",.array (Expr.listToJson double d.extents)),("line",Line.toJson d.line)]

def Target.toJson (t : Target) : Json :=
  .record [("name",.str t.name),("indices",.array (Expr.listToJson double t.indices))]

mutual

def Stmt.toJson : Stmt → Json
  | .declare line d => .located (.tagged "Declare" (d.toJson double)) line
  | .share line names => .located (.tagged "Import" (.list .str names)) line
  | .assign line target value =>
    .located (.tagged "Assign" (.record
      [("target",target.toJson double),("value",value.toJson double)])) line
  | .call line name args =>
    .located (.tagged "Call" (.record
      [("name",.str name),("args",.array (Expr.listToJson double args))])) line
  | .ifElse line cond yes no =>
    .located (.tagged "If" (.record
      [("cond",cond.toJson double),("then_branch",.array (Stmt.listToJson yes)),
        ("else_branch",.array (Stmt.listToJson no))])) line
  | .whileDo line cond body =>
    .located (.tagged "While" (.record
      [("cond",cond.toJson double),("body",.array (Stmt.listToJson body))])) line
  | .repeatUntil line body cond =>
    .located (.tagged "Repeat" (.record
      [("body",.array (Stmt.listToJson body)),("until",cond.toJson double)])) line
  | .forTo line var first last step body =>
    .located (.tagged "For" (.record
      [("var",.str var),("from",first.toJson double),("to",last.toJson double),
        ("step",.option (Expr.toJson double) step),
        ("body",.array (Stmt.listToJson body))])) line
  | .label line name => .located (.tagged "Label" (.str name)) line
  | .goto line name => .located (.tagged "Goto" (.str name)) line
  | .ret line value => .located (.tagged "Return" (.option (Expr.toJson double) value)) line
  | .print line values =>
    .located (.tagged "Print" (.array (Expr.listToJson double values))) line
  | .stop line => .located (.str "Stop") line

def Stmt.listToJson : List Stmt → List Json
  | [] => []
  | s :: rest => Stmt.toJson s :: Stmt.listToJson rest

end

def Param.toJson (p : Param) : Json :=
  .record
    [("name",.str p.name),("base",p.base.toJson),
      ("dimensions",.list Extent.toJson p.dimensions),("line",Line.toJson p.line)]

mutual

def Routine.toJson : Routine → Json
  | ⟨name,discipline,params,returns,body,routines,line⟩ =>
    .record
      [("name",.str name),("discipline",discipline.toJson),
        ("params",.list Param.toJson params),("return_type",returns.toJson),
        ("body",.array (Stmt.listToJson double body)),
        ("routines",.array (Routine.listToJson routines)),("line",Line.toJson line)]

def Routine.listToJson : List Routine → List Json
  | [] => []
  | r :: rest => Routine.toJson r :: Routine.listToJson rest

end

def SourceUnit.toJson (u : SourceUnit) : Json :=
  .record
    [("name",.str u.name),("language",u.language.toJson),
      ("globals",.list (Declaration.toJson double) u.globals),
      ("main",.array (Stmt.listToJson double u.main)),
      ("routines",.array (Routine.listToJson double u.routines))]

end

end StackCompiler
