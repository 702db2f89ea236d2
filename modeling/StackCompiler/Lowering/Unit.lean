import StackCompiler.Code.Module
import StackCompiler.Lowering.Stmt

/-! Code of whole source units.
Everything of the outermost scope is declared before any code is made. The main program comes first,
then the routines, each followed by the routines inside it. -/
namespace StackCompiler.Lowering

/-- What the routines of a unit share: the scopes, the label counter, the diagnostics, the finished
code, where it is found by name, and the tables of the closed scopes. -/
structure Progress where
  scopes : ScopeStack
  nextLabel : Label := 0
  errors : List Diagnostic := []
  routines : List RoutineCode := []
  entryPoints : List (String × Nat) := []
  closed : List SymbolTable := []

abbrev Assemble := ExceptT Diagnostic (StateM Progress)

namespace Assemble

def record (d : Diagnostic) : Assemble Unit :=
  modify fun p => { p with errors := p.errors ++ [d] }

def attempt {α : Type} (step : ScopeStack → Except Diagnostic α × ScopeStack) :
    Assemble (Option α) := do
  let p ← get
  let (result,scopes) := step p.scopes
  set { p with scopes }
  match result with
  | .ok a => pure (some a)
  | .error d =>
    record d
    pure none

def keyOf (name : String) : Assemble String := do
  let p ← get
  pure (p.scopes.normalize name)

/-- Runs a step of the routine that is being put into code, from the frame it has so far. -/
def body {α : Type} (frame : Frame) (step : Lower α) : Assemble (α × Frame) := do
  let p ← get
  let (result,s) := step.run
    { scopes := p.scopes, frame, nextLabel := p.nextLabel, errors := p.errors }
  set { p with scopes := s.scopes, nextLabel := s.nextLabel, errors := s.errors }
  match result with
  | .ok a => pure (a,s.frame)
  | .error d => throw d

end Assemble

open Assemble

/-- Declares the labels of a body; each gets a number that is unique in the module. -/
def declareLabels : List Stmt → Assemble (List (String × Label))
  | [] => pure []
  | .label line name :: rest => do
    let symbol : Symbol :=
      { name, key := name, type := .scalar .label, cls := .label, line }
    let declared ← attempt fun scopes => scopes.declare symbol
    match declared with
    | none => declareLabels rest
    | some symbol =>
      let p ← get
      set { p with nextLabel := p.nextLabel + 1 }
      let labels ← declareLabels rest
      pure ((symbol.key,p.nextLabel) :: labels)
  | _ :: rest => declareLabels rest

def epilogue (r : Routine) : Lower Code := do
  if r.returns = .void then pure [.ret false]
  else
    match ← resultSlot r with
    | some slot => pure [.load (.slot slot),.ret true]
    | none => pure ((Literal.zero r.returns).toList.map .const ++ [.ret true])

def endsWithReturn (code : Code) : Bool :=
  match code.getLast? with
  | some (.ret _) => true
  | _ => false

/-- A branch target that no label of the code defines. -/
def missingLabel? (code : Code) : Option Label :=
  (code.filterMap Instr.target?).find? fun l => !code.contains (.label l)

def bodyCode (r : Routine) (step : Lower Code) : Lower Code := do
  let code ← step
  if endsWithReturn code then pure code
  else
    let more ← epilogue r
    pure (code ++ more)

/-- Puts a routine into code and adds it to the module. `mark` is the number of diagnostics at its
start; the branches of a routine without new ones have to reach labels. -/
def finish (r : Routine) (line : Line) (params mark : Nat) (frame : Frame) (step : Lower Code) :
    Assemble Unit := do
  let (code,frame) ← body frame (bodyCode r step)
  let p ← get
  if p.errors.length = mark then
    if let some l := missingLabel? code then
      throw (.internal (.undefinedLabel l r.entry))
  if (p.entryPoints.lookup r.entry).isSome then
    record ⟨line,.duplicateSymbol r.entry p.scopes.global.name⟩
  else
    let routine : RoutineCode := { name := r.entry, params, returns := r.returns, frame, code }
    set { p with
      routines := p.routines ++ [routine]
      entryPoints := p.entryPoints ++ [(r.entry,p.routines.length)] }

def declareParams : Frame → List Param → Assemble Frame
  | frame, [] => pure frame
  | frame, p :: rest => do
    let declared ← attempt fun scopes =>
      match p.type.validate p.name with
      | .error cause => (.error ⟨p.line,cause⟩,scopes)
      | .ok () => scopes.declare p.symbol
    let key := match declared with
      | some symbol => symbol.key
      | none => p.name
    declareParams (frame.param key p.type) rest

def nestedEntry (parent key : String) : String := parent ++ "." ++ key

def declareNested (parent : String) : List StackCompiler.Routine → Assemble Unit
  | [] => pure ()
  | nested :: rest => do
    let key ← keyOf nested.name
    let symbol := { nested.symbol with entry := some (nestedEntry parent key) }
    let _ ← attempt fun scopes => scopes.declare symbol
    declareNested parent rest

mutual

def routine (language : Language) (entry : String) : StackCompiler.Routine → Assemble Unit
  | ⟨name,discipline,params,returns,stmtList,nested,line⟩ => do
    let opened ← attempt fun scopes =>
      (scopes.push name discipline).map (Except.mapError fun d => ⟨line,d.cause⟩) id
    match opened with
    | none => pure ()
    | some handle =>
      let mark := (← get).errors.length
      let key ← keyOf name
      let resultName := if language = .fortran ∧ returns ≠ .void then some key else none
      let frame ← declareParams [] params
      declareNested entry nested
      let labels ← declareLabels (Stmt.flattenAll stmtList)
      let r : Routine := { language, entry, depth := handle.depth, returns, resultName, labels }
      finish r line params.length mark frame (stmts r stmtList)
      routines language entry nested
      let p ← get
      match p.scopes.pop handle with
      | (.error d,scopes) =>
        set { p with scopes }
        throw d
      | (.ok table,scopes) => set { p with scopes, closed := p.closed ++ [table] }

def routines (language : Language) (parent : String) : List StackCompiler.Routine → Assemble Unit
  | [] => pure ()
  | nested :: rest => do
    let key ← keyOf nested.name
    routine language (nestedEntry parent key) nested
    routines language parent rest

end

def mainDeclarations (main : List Stmt) : List Declaration :=
  (Stmt.flattenAll main).filterMap fun
    | .declare _ d => some d
    | _ => none

def declareAll : List Declaration → Assemble Unit
  | [] => pure ()
  | d :: rest => do
    let _ ← attempt (declare d)
    declareAll rest

def declareRoutines : List StackCompiler.Routine → Assemble Unit
  | [] => pure ()
  | r :: rest => do
    let key ← keyOf r.name
    let symbol := { r.symbol with entry := some key }
    let _ ← attempt fun scopes => scopes.declareGlobal symbol
    declareRoutines rest

def allocateAll (r : Routine) : List Declaration → Lower Code
  | [] => pure []
  | d :: rest => do
    let code ← Lower.recover (allocateGlobal r d)
    let more ← allocateAll r rest
    pure (code ++ more)

def topLevel (language : Language) : List StackCompiler.Routine → Assemble Unit
  | [] => pure ()
  | r :: rest => do
    let entry ← keyOf r.name
    routine language entry r
    topLevel language rest

def sourceUnit (u : SourceUnit) : Assemble Unit := do
  declareAll (u.globals ++ mainDeclarations u.main)
  declareRoutines u.routines
  let mark := (← get).errors.length
  let entry ← keyOf u.name
  let labels ← declareLabels (Stmt.flattenAll u.main)
  let r : Routine := { language := u.language, entry, depth := 0, returns := .void, labels }
  finish r noLine 0 mark [] do
    let arrays ← allocateAll r u.globals
    let code ← stmts r u.main
    pure (arrays ++ code)
  topLevel u.language u.routines

def globals (table : SymbolTable) : List (String × Ty) :=
  (table.symbols.filter (·.cls == .variable)).map fun s => (s.key,s.type)

def Progress.module (p : Progress) (u : SourceUnit) : Module :=
  { name := u.name
    language := u.language
    globals := globals p.scopes.global
    routines := p.routines
    entryPoints := p.entryPoints
    main := 0
    scopes := p.scopes.global :: p.closed }

/-- Puts a unit into code: the routines that were finished, and the module or all diagnostics. -/
def run (u : SourceUnit) (caseSensitive : Bool) :
    List RoutineCode × Except (List Diagnostic) Module :=
  let start : Progress :=
    { scopes := .start u.name caseSensitive u.language.scoping }
  match (sourceUnit u).run start with
  | (.ok (),p) =>
    (p.routines,if p.errors.isEmpty then .ok (p.module u) else .error p.errors)
  | (.error d,p) => (p.routines,.error (p.errors ++ [d]))

end StackCompiler.Lowering
