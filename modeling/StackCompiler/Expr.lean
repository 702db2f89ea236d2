import StackCompiler.Literal
import StackCompiler.Operator

/-! Expressions of source programs, each with its line. -/
namespace StackCompiler

inductive Expr
  | literal (line : Line) (value : Literal)
  | ident (line : Line) (name : String)
  /-- An array element; subscripts count from one. -/
  | index (line : Line) (name : String) (indices : List Expr)
  | unary (line : Line) (op : UnaryOp) (operand : Expr)
  | binary (line : Line) (left : Expr) (op : BinaryOp) (right : Expr)
  | call (line : Line) (name : String) (args : List Expr)

namespace Expr

def line : Expr → Line
  | literal line _ | ident line _ | index line .. | unary line .. | binary line .. | call line .. =>
    line

def apply (op : UnaryOp) (operand : Expr) : Expr :=
  unary operand.line op operand

def join (left : Expr) (op : BinaryOp) (right : Expr) : Expr :=
  binary left.line left op right

def integer? : Expr → Option Int64
  | literal _ (.integer n) => some n
  | _ => none

/-- The value of a literal or a negated literal; the least integer has no negative. -/
def constant? : Expr → Option Literal
  | literal _ value => some value
  | unary _ .neg (literal _ (.integer n)) =>
    if n = Int64.minValue then none else some (.integer (-n))
  | unary _ .neg (literal _ (.double x)) => some (.double (-x))
  | _ => none

end Expr
end StackCompiler
