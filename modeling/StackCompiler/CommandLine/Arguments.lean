import StackCompiler.Compile

/-! The arguments of a command.
Options are long (a name after two dashes) or short (letters after one dash, several in one argument).
A value follows in the same argument, after an equals sign or at once, or is the next argument if
that does not look like an option. After two dashes alone everything is a file. -/
namespace StackCompiler.CommandLine

inductive Flag
  | dumpSymbols | frames | noColor | noLifetime | noCse | noPeephole | caseSensitive
  | caseInsensitive
  deriving DecidableEq

inductive Setting
  | output | level
  deriving DecidableEq

inductive Switch
  | flag (f : Flag)
  | setting (s : Setting)
  | verbose
  | help
  | version
  deriving DecidableEq

namespace Switch

def long : List (String × Switch) :=
  [("output",.setting .output),("dump-symbols",.flag .dumpSymbols),("frames",.flag .frames),
    ("no-color",.flag .noColor),("no-lifetime",.flag .noLifetime),("no-cse",.flag .noCse),
    ("no-peephole",.flag .noPeephole),("case-sensitive",.flag .caseSensitive),
    ("case-insensitive",.flag .caseInsensitive),("verbose",.verbose),("help",.help),
    ("version",.version)]

def short : List (Char × Switch) :=
  [('o',.setting .output),('O',.setting .level),('v',.verbose),('h',.help),('V',.version)]

end Switch

inductive UsageError
  | unknown (argument : String)
  | unexpectedValue (option : String)
  | missingValue
  | invalidValue (value : String)
  | repeated
  | conflict
  | missingFile
  deriving DecidableEq

def UsageError.message : UsageError → String
  | .unknown argument => s!"unexpected argument '{argument}' found"
  | .unexpectedValue option => s!"option '{option}' takes no value"
  | .missingValue => "a value is required but none was supplied"
  | .invalidValue value => s!"invalid value '{value}'"
  | .repeated => "an argument cannot be used multiple times"
  | .conflict => "'--case-sensitive' cannot be used with '--case-insensitive'"
  | .missingFile => "no compilation unit was given"

inductive Interrupt
  | help
  | version
  | usage (error : UsageError)
  deriving DecidableEq

structure Arguments where
  file : Option String := none
  output : Option String := none
  level : Option Nat := none
  flags : List Flag := []
  verbosity : Nat := 0
  deriving DecidableEq

def integer? (s : String) : Option Int :=
  let digits? (cs : List Char) : Option Nat :=
    if !cs.isEmpty && cs.all Char.isDigit then
      some (cs.foldl (fun n c => 10 * n + (c.toNat - '0'.toNat)) 0)
    else none
  match s.toList with
  | '-' :: cs => (digits? cs).map fun n => -(n : Int)
  | '+' :: cs => (digits? cs).map fun n => (n : Int)
  | cs => (digits? cs).map fun n => (n : Int)

def level? (s : String) : Option Nat :=
  (integer? s).bind fun n => if 0 ≤ n ∧ n ≤ 255 then some n.toNat else none

def path? (s : String) : Option String := if s.isEmpty then none else some s

namespace Arguments

abbrev Step := Except Interrupt Arguments

def fail {α : Type} (e : UsageError) : Except Interrupt α := .error (.usage e)

def addFile (a : Arguments) (s : String) : Step :=
  if a.file.isSome then fail (.unknown s)
  else match path? s with
    | some p => .ok { a with file := some p }
    | none => fail (.invalidValue s)

def set (a : Arguments) (s : Setting) (value : String) : Step :=
  match s with
  | .output =>
    if a.output.isSome then fail .repeated
    else match path? value with
      | some p => .ok { a with output := some p }
      | none => fail (.invalidValue value)
  | .level =>
    if a.level.isSome then fail .repeated
    else match level? value with
      | some n => .ok { a with level := some n }
      | none => fail (.invalidValue value)

def switch (a : Arguments) : Switch → Except Interrupt (Arguments × Option Setting)
  | .flag f =>
    if a.flags.contains f then fail .repeated else .ok ({ a with flags := a.flags ++ [f] },none)
  | .verbose => .ok ({ a with verbosity := a.verbosity + 1 },none)
  | .help => .error .help
  | .version => .error .version
  | .setting s => .ok (a,some s)

def longOption (a : Arguments) (name : String) (value : Option String) :
    Except Interrupt (Arguments × Option Setting) :=
  match Switch.long.lookup name, value with
  | none, _ => fail (.unknown ("--" ++ name))
  | some (.setting s), some value => (a.set s value).map (·,none)
  | some _, some _ => fail (.unexpectedValue ("--" ++ name))
  | some s, none => a.switch s

/-- Short options, one letter after another; what follows one that takes a value is its value. -/
def shortOptions (a : Arguments) : List Char → Except Interrupt (Arguments × Option Setting)
  | [] => .ok (a,none)
  | c :: rest =>
    match Switch.short.lookup c, rest with
    | none, _ => fail (.unknown ("-" ++ c.toString))
    | some (.setting s), [] => .ok (a,some s)
    | some (.setting s), '=' :: value => (a.set s (.ofList value)).map (·,none)
    | some (.setting s), value => (a.set s (.ofList value)).map (·,none)
    | some s, rest =>
      match a.switch s with
      | .error e => .error e
      | .ok (a,_) => shortOptions a rest

end Arguments

inductive Token
  | separator
  | long (name : String) (value : Option String)
  | short (letters : List Char)
  | plain
  deriving DecidableEq

def Token.of (arg : String) : Token :=
  match arg.toList with
  | ['-','-'] => .separator
  | '-' :: '-' :: cs =>
    .long (.ofList (cs.takeWhile (· ≠ '=')))
      (match cs.dropWhile (· ≠ '=') with
        | [] => none
        | _ :: value => some (.ofList value))
  | '-' :: c :: cs => .short (c :: cs)
  | _ => .plain

namespace Arguments

def readFiles : Arguments → List String → Step
  | a, [] => .ok a
  | a, arg :: rest => (a.addFile arg).bind (readFiles · rest)

/-- Reads the arguments in order, with the option that still waits for its value. -/
def read : Arguments → Option Setting → List String → Step
  | a, none, [] => .ok a
  | _, some _, [] => fail .missingValue
  | a, some s, arg :: rest =>
    match Token.of arg with
    | .plain => (a.set s arg).bind (read · none rest)
    | _ => fail .missingValue
  | a, none, arg :: rest =>
    match Token.of arg with
    | .plain => (a.addFile arg).bind (read · none rest)
    | .separator => readFiles a rest
    | .long name value => (a.longOption name value).bind fun r => read r.1 r.2 rest
    | .short letters => (a.shortOptions letters).bind fun r => read r.1 r.2 rest

end Arguments

structure Job where
  file : String
  output : Option String := none
  dumpSymbols : Bool := false
  frames : Bool := false
  noColor : Bool := false
  verbosity : Nat := 0
  options : CompileOptions := {}

namespace Arguments

def passes (a : Arguments) : Passes :=
  if a.level = some 0 then .none
  else
    { lifetime := !a.flags.contains .noLifetime
      cse := !a.flags.contains .noCse
      peephole := !a.flags.contains .noPeephole }

def caseRule (a : Arguments) : Option Bool :=
  if a.flags.contains .caseSensitive then some true
  else if a.flags.contains .caseInsensitive then some false
  else none

def job (a : Arguments) : Except Interrupt Job :=
  if a.flags.contains .caseSensitive && a.flags.contains .caseInsensitive then fail .conflict
  else match a.file with
    | none => fail .missingFile
    | some file =>
      .ok
        { file
          output := a.output
          dumpSymbols := a.flags.contains .dumpSymbols
          frames := a.flags.contains .frames
          noColor := a.flags.contains .noColor
          verbosity := a.verbosity
          options := { passes := a.passes, caseSensitive := a.caseRule } }

end Arguments

def Job.ofArguments (args : List String) : Except Interrupt Job :=
  (Arguments.read {} none args).bind Arguments.job

end StackCompiler.CommandLine
