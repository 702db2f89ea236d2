import StackCompiler.CommandLine.Arguments
import StackCompiler.CommandLine.Report
import StackCompiler.Log
import StackCompiler.SourceUnit.Reader
import StackCompiler.Text.Plain

/-! The whole command, over any way to read and write files. -/
namespace StackCompiler.CommandLine

structure FileSystem (m : Type → Type) where
  read : String → m (Except String String)
  write : String → String → m (Except String Unit)

structure Outcome where
  exit : Nat := 0
  stdout : String := ""
  stderr : String := ""
  deriving DecidableEq

def unlines (ls : List String) : String := String.join (ls.map (· ++ "\n"))

def helpText : String := unlines
  ["Compiles a checked Fortran or Comal compilation unit into a stack-machine listing","",
    "Usage: polyback [OPTIONS] <FILE_PATH>","","Options:",
    "  -o, --output <FILE>     Writes the listing to <FILE> instead of stdout",
    "      --dump-symbols      Prints the symbol tables of every scope",
    "      --frames            Prints the slot table of every routine in the listing",
    "      --no-color          Errors are printed without color",
    "  -O <LEVEL>              Optimization level, 0 disables every pass",
    "      --no-lifetime","      --no-cse","      --no-peephole",
    "      --case-sensitive    Treats identifiers as case-sensitive regardless of the language",
    "      --case-insensitive  Treats identifiers as case-insensitive regardless of the language",
    "  -v, --verbose...        Verbose mode (-v, -vv, -vvv)",
    "  -h, --help              Print help","  -V, --version           Print version"]

def versionText : String := unlines ["polyback 0.1.0"]

def Interrupt.outcome : Interrupt → Outcome
  | .help => { stdout := helpText }
  | .version => { stdout := versionText }
  | .usage e => { exit := 2, stderr := unlines ["error: " ++ e.message] }

/-- The same outcome with more text at the front of the error stream. -/
def Outcome.after (text : String) (o : Outcome) : Outcome := { o with stderr := text ++ o.stderr }

namespace Job

def failed (job : Job) (colored : Bool) (f : Failure) : Outcome :=
  { exit := 1, stderr := unlines (f.lines (colored && !job.noColor) job.file) }

/-- The log at the verbosity of the job. Terminal control inside it stands only where colours are
wanted. -/
def logText (job : Job) (colored : Bool) (u : SourceUnit) : String :=
  let shown := (u.log job.options).filter (LogEntry.isShown job.verbosity)
  let line (e : LogEntry) := if colored then e.text ++ "\n" else Text.plain (e.text ++ "\n")
  String.join (shown.map line)

def tablesText (job : Job) (m : Module) : String :=
  if job.dumpSymbols then unlines (m.scopes.map SymbolTable.text) else ""

/-- The listing, with the text that goes to the error stream before it. -/
def listing (job : Job) (colored : Bool) (u : SourceUnit) : String × Except Failure String :=
  match u.compile job.options with
  | .error ds => (job.logText colored u,.error (.diagnostics ds))
  | .ok m =>
    (job.logText colored u ++ job.tablesText m,
      (m.listing job.frames).mapError fun d => .diagnostics [d])

section

variable {m : Type → Type} [Monad m] (fs : FileSystem m) (colored : Bool)

def deliver (job : Job) (text : String) : m Outcome :=
  match job.output with
  | none => pure { stdout := text ++ "\n" }
  | some path => do
    match ← fs.write path (text ++ "\n") with
    | .ok () => pure {}
    | .error e => pure (job.failed colored (.system s!"couldn't write '{path}': {e}"))

def run (job : Job) : m Outcome := do
  match ← fs.read job.file with
  | .error e => pure (job.failed colored (.system s!"couldn't read '{job.file}': {e}"))
  | .ok source =>
    match SourceUnit.parse? source with
    | none => pure (job.failed colored (.system s!"invalid compilation unit '{job.file}'"))
    | some u =>
      let (told,result) := job.listing colored u
      match result with
      | .error f => pure ((job.failed colored f).after told)
      | .ok text => do
        let o ← deliver fs colored job text
        pure (o.after told)

end

end Job

def run {m : Type → Type} [Monad m] (fs : FileSystem m) (colored : Bool) (args : List String) :
    m Outcome :=
  match Job.ofArguments args with
  | .error i => pure i.outcome
  | .ok job => job.run fs colored

end StackCompiler.CommandLine
