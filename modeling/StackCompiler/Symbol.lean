import StackCompiler.Diagnostic
import StackCompiler.SourceUnit
import StackCompiler.Text.Upper

/-! Symbols and the tables that hold them, one table for each scope.
A table keeps its symbols in the order of their declaration, no two of them under one key. -/
namespace StackCompiler

/-- A declared name. For a routine `type` is the type of its result and `entry` the name of its
code; `line` moves forward with every reference. -/
structure Symbol where
  name : String
  key : String
  type : Ty
  cls : SymbolClass
  line : Line
  params : List Ty := []
  value : Option Literal := none
  entry : Option String := none
  deriving DecidableEq

namespace Symbol

def isRoutine (s : Symbol) : Bool := s.cls == .function
def isArray (s : Symbol) : Bool := s.type.isArray

def hasStorage (s : Symbol) : Bool := s.cls == .variable || s.cls == .parameter

def touch (s : Symbol) (line : Line) : Symbol :=
  if line = noLine then s else { s with line }

end Symbol

def Declaration.symbol (d : Declaration) : Symbol :=
  { name := d.name, key := d.name, type := d.type, cls := d.cls, line := d.line, value := d.value }

def Param.symbol (p : Param) : Symbol :=
  { name := p.name, key := p.name, type := p.type, cls := .parameter, line := p.line }

def Routine.symbol (r : Routine) : Symbol :=
  { name := r.name, key := r.name, type := .scalar r.returns, cls := .function, line := r.line,
    params := r.params.map Param.type }

/-- The key of a name: its capital form unless case matters. -/
def normalize (caseSensitive : Bool) (name : String) : String :=
  if caseSensitive then name else Text.upper name

structure SymbolTable where
  name : String
  caseSensitive : Bool
  symbols : List Symbol := []

namespace SymbolTable

def normalize (t : SymbolTable) (name : String) : String :=
  StackCompiler.normalize t.caseSensitive name

def get? (t : SymbolTable) (key : String) : Option Symbol :=
  t.symbols.find? (·.key == key)

def lookup (t : SymbolTable) (name : String) : Option Symbol :=
  t.get? (t.normalize name)

def keyed (t : SymbolTable) (s : Symbol) : Symbol :=
  { s with key := t.normalize s.name }

def declare (t : SymbolTable) (s : Symbol) : Except Diagnostic Symbol × SymbolTable :=
  match t.lookup s.name with
  | some _ => (.error ⟨s.line,.duplicateSymbol s.name t.name⟩,t)
  | none => (.ok (t.keyed s),{ t with symbols := t.symbols ++ [t.keyed s] })

def remove (t : SymbolTable) (name : String) : SymbolTable :=
  { t with symbols := t.symbols.eraseP (·.key == t.normalize name) }

def touch (t : SymbolTable) (key : String) (line : Line) : SymbolTable :=
  { t with symbols := t.symbols.map fun s => if s.key == key then s.touch line else s }

def pad (width : Nat) (s : String) : String :=
  s ++ String.ofList (List.replicate (width - s.length) ' ')

def row (s : Symbol) : String :=
  let value := match s.value with
    | none => ""
    | some v => " = " ++ v.text
  s!"  {pad 16 s.name} {pad 10 s.cls.text} {pad 16 s.type.text} line {s.line.toInt}{value}\n"

def text (t : SymbolTable) : String :=
  s!"scope {t.name}\n" ++ String.join (t.symbols.map row)

end SymbolTable
end StackCompiler
