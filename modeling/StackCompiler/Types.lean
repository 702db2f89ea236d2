/-! Types of values: six base types, and arrays of them with up to seven dimensions. -/
namespace StackCompiler

inductive BaseType
  | integer | double | char | boolean | label | void
  deriving DecidableEq

namespace BaseType

def text : BaseType → String
  | integer => "INTEGER"
  | double => "DOUBLE"
  | char => "CHAR"
  | boolean => "BOOLEAN"
  | label => "LABEL"
  | void => "VOID"

def isNumeric : BaseType → Bool
  | integer | double => true
  | _ => false

def isStorable : BaseType → Bool
  | label | void => false
  | _ => true

def name : BaseType → String
  | integer => "Integer"
  | double => "Double"
  | char => "Char"
  | boolean => "Boolean"
  | label => "Label"
  | void => "Void"

def all : List BaseType := [integer,double,char,boolean,label,void]

end BaseType

/-- The size of one dimension: a 64-bit number, or a size known only when the program runs. -/
inductive Extent
  | fixed (n : UInt64)
  | dynamic
  deriving DecidableEq

def Extent.text : Extent → String
  | fixed n => toString n.toNat
  | dynamic => "*"

structure Ty where
  base : BaseType
  dimensions : List Extent := []
  deriving DecidableEq

namespace Ty

def scalar (base : BaseType) : Ty := ⟨base,[]⟩

def isScalar (t : Ty) : Bool := t.dimensions.isEmpty
def isArray (t : Ty) : Bool := !t.isScalar
def isVoid (t : Ty) : Bool := t.base == .void
def isNumeric (t : Ty) : Bool := t.isScalar && t.base.isNumeric
def rank (t : Ty) : Nat := t.dimensions.length
def isDynamic (t : Ty) : Bool := t.dimensions.contains .dynamic
def element (t : Ty) : Ty := scalar t.base

def text (t : Ty) : String :=
  if t.isScalar then t.base.text
  else t.base.text ++ "(" ++ ",".intercalate (t.dimensions.map Extent.text) ++ ")"

def maxRank : Nat := 7

def maxDynamicRank : Nat := 2

end Ty

abbrev Line := Int32

def noLine : Line := -1

end StackCompiler
