import StackCompiler.Types

/-! Operators of expressions, which are also the operators of the machine. -/
namespace StackCompiler

inductive BinaryOp
  | add | sub | mul | div | intDiv | mod | pow | concat
  | eq | ne | lt | le | gt | ge | and | or
  deriving DecidableEq

namespace BinaryOp

def isComparison : BinaryOp → Bool
  | eq | ne | lt | le | gt | ge => true
  | _ => false

def isLogical : BinaryOp → Bool
  | and | or => true
  | _ => false

/-- The base type of the result when both operands have base type `operand`. -/
def result (op : BinaryOp) (operand : BaseType) : BaseType :=
  if op.isComparison then .boolean else operand

def symbol : BinaryOp → String
  | add => "+"
  | sub => "-"
  | mul => "*"
  | div => "/"
  | intDiv => "DIV"
  | mod => "MOD"
  | pow => "^"
  | concat => "//"
  | eq => "="
  | ne => "<>"
  | lt => "<"
  | le => "<="
  | gt => ">"
  | ge => ">="
  | and => "AND"
  | or => "OR"

def mnemonic : BinaryOp → String
  | add => "add"
  | sub => "sub"
  | mul => "mul"
  | div => "div"
  | intDiv => "idiv"
  | mod => "mod"
  | pow => "pow"
  | concat => "cat"
  | eq => "eq"
  | ne => "ne"
  | lt => "lt"
  | le => "le"
  | gt => "gt"
  | ge => "ge"
  | and => "and"
  | or => "or"

def name : BinaryOp → String
  | add => "Add"
  | sub => "Sub"
  | mul => "Mul"
  | div => "Div"
  | intDiv => "IntDiv"
  | mod => "Mod"
  | pow => "Pow"
  | concat => "Concat"
  | eq => "Eq"
  | ne => "Ne"
  | lt => "Lt"
  | le => "Le"
  | gt => "Gt"
  | ge => "Ge"
  | and => "And"
  | or => "Or"

def all : List BinaryOp :=
  [add,sub,mul,div,intDiv,mod,pow,concat,eq,ne,lt,le,gt,ge,and,or]

end BinaryOp

inductive UnaryOp
  | neg | not
  deriving DecidableEq

namespace UnaryOp

def symbol : UnaryOp → String
  | neg => "-"
  | not => "NOT"

def mnemonic : UnaryOp → String
  | neg => "neg"
  | not => "not"

def name : UnaryOp → String
  | neg => "Neg"
  | not => "Not"

def all : List UnaryOp := [neg,not]

end UnaryOp
end StackCompiler
