import StackCompiler.Symbol

/-! The scopes that are open at a point of a program.
The outermost scope is always there; routine scopes are stacked on it. A closed scope hides the
names around it except those it shares. An operation that may fail gives its answer or a diagnostic,
and the scopes after it. -/
namespace StackCompiler

structure Scope where
  id : Nat
  table : SymbolTable
  discipline : Discipline := .opened
  imported : List String := []

namespace Scope

/-- The scope hides an outer name with this key. -/
def hides (s : Scope) (key : String) : Bool :=
  s.discipline == .closed && !s.imported.contains key

def share (s : Scope) (key : String) : Scope :=
  if s.imported.contains key then s else { s with imported := key :: s.imported }

end Scope

structure ScopeHandle where
  depth : Nat
  id : Nat
  deriving DecidableEq

/-- Open scopes: routine scopes from the innermost outwards, then the outermost. -/
structure ScopeStack where
  inner : List Scope := []
  outermost : Scope
  scoping : Scoping
  nextId : Nat := 1

namespace ScopeStack

def start (name : String) (caseSensitive : Bool) (scoping : Scoping) : ScopeStack :=
  { outermost := { id := 0, table := { name, caseSensitive } }, scoping }

def depth (s : ScopeStack) : Nat := s.inner.length
def isGlobal (s : ScopeStack) : Bool := s.inner.isEmpty
def global (s : ScopeStack) : SymbolTable := s.outermost.table
def caseSensitive (s : ScopeStack) : Bool := s.global.caseSensitive
def normalize (s : ScopeStack) (name : String) : String := s.global.normalize name

def top (s : ScopeStack) : Scope := s.inner.headD s.outermost

def current (s : ScopeStack) : SymbolTable := s.top.table
def discipline (s : ScopeStack) : Discipline := s.top.discipline

def scopes (s : ScopeStack) : List Scope := s.inner ++ [s.outermost]

def updateTop (s : ScopeStack) (f : Scope → Scope) : ScopeStack :=
  match s.inner with
  | [] => { s with outermost := f s.outermost }
  | scope :: rest => { s with inner := f scope :: rest }

/-- Opens a scope. Under flat scoping only one may be open besides the outermost, and it hides
nothing. -/
def push (s : ScopeStack) (name : String) (discipline : Discipline) :
    Except Diagnostic ScopeHandle × ScopeStack :=
  if s.scoping == .flat && !s.isGlobal then
    (.error (.internal (.unsupportedConstruct
      s!"routine '{name}' cannot be nested inside '{s.current.name}'")),s)
  else
    let discipline := if s.scoping == .flat then .opened else discipline
    let table : SymbolTable := { name, caseSensitive := s.caseSensitive }
    let scope : Scope := { id := s.nextId, table, discipline }
    (.ok ⟨s.depth + 1,s.nextId⟩,{ s with inner := scope :: s.inner, nextId := s.nextId + 1 })

/-- Closes the innermost scope, which has to be the one the handle was given for. -/
def pop (s : ScopeStack) (h : ScopeHandle) : Except Diagnostic SymbolTable × ScopeStack :=
  match s.inner with
  | [] => (.error (.internal (.scopeMismatch "cannot pop the global scope")),s)
  | scope :: rest =>
    if h.depth = s.depth ∧ h.id = scope.id then (.ok scope.table,{ s with inner := rest })
    else (.error (.internal (.scopeMismatch
      s!"closing a scope at depth {h.depth} while '{scope.table.name}' at depth {s.depth} is innermost")),s)

def declare (s : ScopeStack) (symbol : Symbol) : Except Diagnostic Symbol × ScopeStack :=
  let (result,table) := s.current.declare symbol
  (result,s.updateTop fun scope => { scope with table })

def declareGlobal (s : ScopeStack) (symbol : Symbol) : Except Diagnostic Symbol × ScopeStack :=
  let (result,table) := s.global.declare symbol
  (result,{ s with outermost := { s.outermost with table } })

def remove (s : ScopeStack) (name : String) : ScopeStack :=
  s.updateTop fun scope => { scope with table := scope.table.remove name }

/-- Looks for a key from the first scope outwards, up to a scope that hides it; with the depth of
the scope that has it. -/
def find (key : String) : List Scope → Option (Symbol × Nat)
  | [] => none
  | scope :: rest =>
    match scope.table.lookup key with
    | some symbol => some (symbol,rest.length)
    | none => if scope.hides key then none else find key rest

/-- The visible symbol of a name and the depth of its scope. -/
def resolve (s : ScopeStack) (name : String) : Option (Symbol × Nat) :=
  find (s.normalize name) s.scopes

/-- Looks for a routine with the key, whatever the scopes hide. -/
def findRoutine (key : String) : List Scope → Option (Symbol × Nat)
  | [] => none
  | scope :: rest =>
    match (scope.table.lookup key).filter Symbol.isRoutine with
    | some symbol => some (symbol,rest.length)
    | none => findRoutine key rest

/-- The symbol that a call of the name means: routines need not be shared to be called. -/
def resolveRoutine (s : ScopeStack) (name : String) : Option (Symbol × Nat) :=
  match s.resolve name with
  | some found => some found
  | none => findRoutine (s.normalize name) s.scopes

/-- Shares an outer name with the innermost scope. -/
def share (s : ScopeStack) (name : String) (line : Line) :
    Except Diagnostic Symbol × ScopeStack :=
  let key := s.normalize name
  match s.inner with
  | [] => (.error ⟨line,.undefinedImport name⟩,s)
  | scope :: rest =>
    match find key (rest ++ [s.outermost]) with
    | none => (.error ⟨line,.undefinedImport name⟩,s)
    | some (symbol,_) => (.ok symbol,{ s with inner := scope.share key :: rest })

def touchAt (key : String) (line : Line) : Nat → List Scope → List Scope
  | _, [] => []
  | depth, scope :: rest =>
    if rest.length = depth then { scope with table := scope.table.touch key line } :: rest
    else scope :: touchAt key line depth rest

def touch (s : ScopeStack) (found : Symbol × Nat) (line : Line) : ScopeStack :=
  match found.2 with
  | 0 =>
    { s with outermost := { s.outermost with table := s.outermost.table.touch found.1.key line } }
  | depth + 1 => { s with inner := touchAt found.1.key line depth s.inner }

end ScopeStack
end StackCompiler
