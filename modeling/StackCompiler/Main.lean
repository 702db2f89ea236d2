import StackCompiler.CommandLine.Run

/-! The command itself. -/
namespace StackCompiler.CommandLine

def errorNumber (code : UInt32) : Nat :=
  if code < 0x80000000 then code.toNat else UInt32.size - code.toNat

def failureOf : IO.Error → Option (Nat × String)
  | .noFileOrDirectory _ code details | .invalidArgument _ code details
  | .permissionDenied _ code details | .inappropriateType _ code details
  | .alreadyExists _ code details | .resourceExhausted _ code details
  | .otherError code details | .illegalOperation code details =>
    some (errorNumber code,details)
  | _ => none

def failureTexts : List (Nat × String) :=
  [(2,"No such file or directory"),(13,"Permission denied"),(20,"Not a directory"),
    (21,"Is a directory"),(28,"No space left on device"),(36,"File name too long")]

def systemText (e : IO.Error) : String :=
  match failureOf e with
  | none => toString e
  | some (number,details) =>
    (failureTexts.lookup number).getD details.capitalize ++ s!" (os error {number})"

def guarded {α : Type} (action : IO α) : IO (Except String α) := do
  match ← action.toBaseIO with
  | .ok a => pure (.ok a)
  | .error e => pure (.error (systemText e))

def machine : FileSystem IO where
  read path := do
    match ← guarded (IO.FS.readBinFile path) with
    | .error e => pure (.error e)
    | .ok bytes =>
      match String.fromUTF8? bytes with
      | some text => pure (.ok text)
      | none => pure (.error "stream did not contain valid UTF-8")
  write path text := guarded (IO.FS.withFile path .write fun h => do
    h.putStr text
    h.flush)

end StackCompiler.CommandLine

open StackCompiler CommandLine in
def main (args : List String) : IO UInt32 := do
  let stdout ← IO.getStdout
  let isTerminal ← stdout.isTty
  let force ← IO.getEnv "CLICOLOR_FORCE"
  let forbid ← IO.getEnv "NO_COLOR"
  let terminal ← IO.getEnv "CLICOLOR"
  let o ← run machine (wantsColor force forbid terminal isTerminal) args
  IO.eprint o.stderr
  IO.print o.stdout
  pure o.exit.toUInt32
