import StackCompiler.Proofs.Assembly
import StackCompiler.Proofs.Evaluation

/-! The bodies of a unit, each with the scopes before its first statement.
The scopes are built from the tree alone: everything of the outermost scope is declared first, a
routine adds a scope with its parameters, routines and labels, and the routines inside it see what its
body has declared. They tell which elements a body addresses and which arrays it makes, in order. -/
namespace StackCompiler

open Evaluation

mutual

/-- A routine, then the routines inside it: the order in which they are put into code. -/
def Routine.preorder : Routine → List Routine
  | ⟨name,discipline,params,returns,body,nested,line⟩ =>
    ⟨name,discipline,params,returns,body,nested,line⟩ :: Routine.preorderAll nested

def Routine.preorderAll : List Routine → List Routine
  | [] => []
  | x :: rest => x.preorder ++ Routine.preorderAll rest

end

/-- A place of the source where an element of what a name means is addressed, or an array is made. -/
inductive Access
  | element (found : Symbol × Nat) (indices : List Expr)
  | array (d : Declaration)

section accesses

variable (r : Setting) (scopes : ScopeStack)

/-- A name with subscripts is an element, unless it means a routine. -/
def elementAccess (name : String) (indices : List Expr) : List Access :=
  match scopes.resolve name with
  | some found => if found.1.isRoutine then [] else [.element found indices]
  | none => []

mutual

/-- The accesses of an expression; those in its operands and subscripts come first. -/
def Expr.accesses : Expr → List Access
  | .literal .. | .ident .. => []
  | .index _ name indices => Expr.accessesAll indices ++ elementAccess scopes name indices
  | .unary _ _ operand => operand.accesses
  | .binary _ left _ right => left.accesses ++ right.accesses
  | .call _ _ args => Expr.accessesAll args

def Expr.accessesAll : List Expr → List Access
  | [] => []
  | e :: rest => e.accesses ++ Expr.accessesAll rest

end

/-- An array is made after the sizes that its dynamic dimensions ask for are computed. -/
def Declaration.accesses (d : Declaration) : List Access :=
  if MakesArray d then
    Expr.accessesAll scopes (d.extents.take (d.dimensions.count .dynamic)) ++ [.array d]
  else []

mutual

/-- The accesses of a statement in the order of the program; the condition of a loop comes behind its
body. -/
def Stmt.accesses (scopes : ScopeStack) : Stmt → List Access
  | .declare line d => d.accesses (after r scopes (.declare line d))
  | .assign _ target value =>
    Expr.accessesAll scopes target.indices ++ value.accesses scopes ++
      if target.indices.isEmpty then [] else elementAccess scopes target.name target.indices
  | .call _ _ args => Expr.accessesAll scopes args
  | .ifElse _ cond yes no =>
    cond.accesses scopes ++ Stmt.accessesAll scopes yes ++ Stmt.accessesAll (afterAll r scopes yes) no
  | .whileDo _ cond body | .repeatUntil _ body cond =>
    Stmt.accessesAll scopes body ++ cond.accesses (afterAll r scopes body)
  | .forTo _ _ first last step body =>
    first.accesses scopes ++ last.accesses scopes ++ Expr.accessesAll scopes step.toList ++
      Stmt.accessesAll scopes body
  | .ret _ value => Expr.accessesAll scopes value.toList
  | .print _ values => Expr.accessesAll scopes values
  | .share .. | .label .. | .goto .. | .stop .. => []

def Stmt.accessesAll (scopes : ScopeStack) : List Stmt → List Access
  | [] => []
  | x :: rest => x.accesses scopes ++ Stmt.accessesAll (after r scopes x) rest

end

end accesses

namespace Evaluation

/-- A routine with what evaluation knows of it, the scopes before its first statement, and the
declarations whose arrays are made before that. -/
structure Body where
  setting : Setting
  scopes : ScopeStack
  routine : Routine
  arrays : List Declaration

namespace Body

def stmts (b : Body) : List Stmt := b.routine.body

def accesses (b : Body) : List Access :=
  b.arrays.flatMap (Declaration.accesses b.scopes) ++ Stmt.accessesAll b.setting b.scopes b.stmts

end Body

/-- The scopes before the body of a routine. -/
def enter (scopes : ScopeStack) (entry : String) (x : Routine) : ScopeStack :=
  match scopes.push x.name x.discipline with
  | (.ok _,inner) => inner.add (Lowering.bodySymbols inner entry x.params x.routines x.body)
  | (.error _,_) => scopes

mutual

def routineBodies (language : Language) (scopes : ScopeStack) (entry : String) : Routine → List Body
  | ⟨name,discipline,params,returns,body,nested,line⟩ =>
    let x : Routine := ⟨name,discipline,params,returns,body,nested,line⟩
    let setting : Setting := ⟨language,scopes.depth + 1,returns⟩
    let inner := enter scopes entry x
    ⟨setting,inner,x,[]⟩ :: nestedBodies language (afterAll setting inner body) entry nested

def nestedBodies (language : Language) (scopes : ScopeStack) (parent : String) :
    List Routine → List Body
  | [] => []
  | x :: rest =>
    routineBodies language scopes (Lowering.nestedEntry parent (scopes.normalize x.name)) x ++
      nestedBodies language scopes parent rest

end

/-- The outermost scope with all its declarations, routines and labels. -/
def outermost (u : SourceUnit) (caseSensitive : Bool) : ScopeStack :=
  let start := ScopeStack.start u.name caseSensitive u.language.scoping
  let declared := (u.globals ++ Lowering.mainDeclarations u.main).filterMap fun d =>
    (Lowering.declared d).toOption
  start.add (declared.map start.current.keyed ++ u.routines.map (Lowering.routineSymbol start) ++
    (Lowering.labelNames (Stmt.flattenAll u.main)).map (Lowering.labelSymbol start.current))

/-- The main program, as a routine that holds all others. -/
def program (u : SourceUnit) (caseSensitive : Bool) : Body where
  setting := ⟨u.language,0,.void⟩
  scopes := outermost u caseSensitive
  routine := { name := u.name, body := u.main, routines := u.routines }
  arrays := u.globals

def topBodies (language : Language) (scopes : ScopeStack) (xs : List Routine) : List Body :=
  xs.flatMap fun x => routineBodies language scopes (scopes.normalize x.name) x

/-- The bodies of the routines in the order of the program. -/
def subprograms (u : SourceUnit) (caseSensitive : Bool) : List Body :=
  let main := program u caseSensitive
  topBodies u.language (afterAll main.setting main.scopes u.main) u.routines

/-- The main program, then the routines in the order of the program. -/
def bodies (u : SourceUnit) (caseSensitive : Bool) : List Body :=
  program u caseSensitive :: subprograms u caseSensitive

section order

mutual

theorem routine_routineBodies (language : Language) : ∀ (x : Routine) (scopes : ScopeStack)
    (entry : String), (routineBodies language scopes entry x).map Body.routine = x.preorder
  | ⟨_,_,_,_,body,nested,_⟩, _, entry => by
    rw [routineBodies,Routine.preorder,List.map_cons,routine_nestedBodies language nested _ entry]

theorem routine_nestedBodies (language : Language) : ∀ (xs : List Routine) (scopes : ScopeStack)
    (parent : String),
    (nestedBodies language scopes parent xs).map Body.routine = Routine.preorderAll xs
  | [], _, _ => by
    rw [nestedBodies,Routine.preorderAll]
    rfl
  | x :: rest, _, parent => by
    rw [nestedBodies,Routine.preorderAll,List.map_append,routine_routineBodies language x,
      routine_nestedBodies language rest]

end

/-- Every routine of the unit has its body, in the order of the program. -/
theorem routine_subprograms (u : SourceUnit) (caseSensitive : Bool) :
    (subprograms u caseSensitive).map Body.routine = Routine.preorderAll u.routines := by
  unfold subprograms topBodies
  induction u.routines with
  | nil =>
    rw [Routine.preorderAll]
    rfl
  | cons x rest ih =>
    rw [List.flatMap_cons,List.map_append,ih,routine_routineBodies,Routine.preorderAll]

end order

end Evaluation
end StackCompiler
