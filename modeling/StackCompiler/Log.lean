import StackCompiler.Compile

/-! What is told about a compilation while it runs. -/
namespace StackCompiler

inductive LogLevel
  | info | debug | trace
  deriving DecidableEq

namespace LogLevel

def text : LogLevel → String
  | info => "INFO"
  | debug => "DEBUG"
  | trace => "TRACE"

def threshold : LogLevel → Nat
  | info => 1
  | debug => 2
  | trace => 3

end LogLevel

structure LogEntry where
  level : LogLevel
  origin : String
  message : String
  deriving DecidableEq

namespace LogEntry

def text (e : LogEntry) : String :=
  s!"[{e.level.text} {e.origin}] " ++ "\n    ".intercalate (e.message.splitOn "\n")

def isShown (verbosity : Nat) (e : LogEntry) : Bool := e.level.threshold ≤ verbosity

end LogEntry

namespace Log

def lowered (r : RoutineCode) : LogEntry :=
  ⟨.debug,"polyback_compiler::compiler::codegen",
    s!"translated '{r.name}': {r.code.length} instructions, {r.frame.length} slots"⟩

def finished (u : SourceUnit) (routines : Nat) : LogEntry :=
  ⟨.info,"polyback_compiler",
    s!"translated {u.language.text} unit '{u.name}' into {routines} routines"⟩

def pass (message : String) : LogEntry :=
  ⟨.debug,"polyback_compiler::compiler::optimizer",message⟩

def step (name message : String) : LogEntry :=
  ⟨.trace,"polyback_compiler::compiler::optimizer::" ++ name,message⟩

def sharing (r : RoutineCode) : List LogEntry :=
  let s := r.shareSlots
  s.shared.map (fun p => step "lifetime" s!"{r.name}: %{p.1} shares slot %{p.2}") ++
    [pass s!"{r.name}: lifetime reduction saved {s.saved} slots"]

def reuse (r : RoutineCode) : List LogEntry :=
  let s := r.reuseValues
  s.replaced.map (fun p =>
      step "cse" s!"{r.name}: {p.1.start}..={p.1.stop} loaded from %{p.2}") ++
    [pass s!"{r.name}: {s.replaced.length} common subexpressions replaced"]

def windows (r : RoutineCode) : List LogEntry :=
  let s := r.code.simplify
  let counts := s!"{r.code.length} -> {s.code.length} instructions"
  s.replacements.map (fun p => step "peephole" (p.1.logText ++ " => " ++ p.2.logText)) ++
    [pass s!"{r.name}: {s.changes} peephole rewrites, {counts}"]

def optimized (p : Passes) (r : RoutineCode) : List LogEntry :=
  (if p.lifetime then sharing r else []) ++ (if p.cse then reuse (p.shared r) else []) ++
    (if p.peephole then windows (p.reused r) else [])

end Log

/-- The log of a compilation; a unit with errors gets no further than its finished routines. -/
def SourceUnit.log (u : SourceUnit) (o : CompileOptions) : List LogEntry :=
  match Lowering.run u (o.caseRule u) with
  | (routines,.error _) => routines.map Log.lowered
  | (routines,.ok m) =>
    routines.map Log.lowered ++ [Log.finished u m.routines.length] ++
      m.routines.flatMap (Log.optimized o.passes)

end StackCompiler
