import StackCompiler.CommandLine.Run

/-! A working directory as a value: what a command does to its files can be told without a system.
Paths are followed part by part. Every part but the last has to be a folder, and so has the last one
if a slash or a dot comes after it. -/
namespace StackCompiler.CommandLine

inductive PathError
  | notFound
  | notAFolder
  | isAFolder
  | nameTooLong
  | noSpace
  deriving DecidableEq

def PathError.text : PathError → String
  | .notFound => "No such file or directory (os error 2)"
  | .notAFolder => "Not a directory (os error 20)"
  | .isAFolder => "Is a directory (os error 21)"
  | .nameTooLong => "File name too long (os error 36)"
  | .noSpace => "No space left on device (os error 28)"

/-- The folders that a path can pass: the working directory, those around it, the top of the
system, the folder of devices, and further folders of the system. -/
inductive Folder
  | working
  | around
  | top
  | devices
  | system
  deriving DecidableEq

inductive Entry
  | folder (f : Folder)
  | file (text : String)
  /-- Takes everything and holds nothing. -/
  | sink
  /-- Takes nothing. -/
  | full

/-- A path: where it starts, its parts, and whether a slash ends it. -/
structure Path where
  start : Folder
  parts : List String
  slash : Bool

namespace Path

def maxPart : Nat := 255
def maxLength : Nat := 4095

def of (s : String) : Path :=
  { start := if s.startsWith "/" then .top else .working
    parts := (s.splitOn "/").filter (· ≠ "")
    slash := s.endsWith "/" }

end Path

structure Directory where
  files : List (String × String) := []

namespace Directory

def get? (d : Directory) (name : String) : Option String := d.files.lookup name

def put (d : Directory) (name text : String) : Directory :=
  { files := (name,text) :: d.files.filter (·.1 ≠ name) }

def systemFolders : List String := ["bin","etc","proc","tmp","usr","var"]

def parent : Folder → Folder
  | .working | .around => .around
  | .top | .devices | .system => .top

/-- What a part of a path stands for in a folder, if there is such a thing. -/
def entry? (d : Directory) (f : Folder) (part : String) : Except PathError (Option Entry) :=
  if part = "." then .ok (some (.folder f))
  else if part = ".." then .ok (some (.folder (parent f)))
  else if Path.maxPart < part.utf8ByteSize then .error .nameTooLong
  else
    .ok (match f with
      | .working => (d.get? part).map .file
      | .top =>
        if part = "dev" then some (.folder .devices)
        else if systemFolders.contains part then some (.folder .system)
        else none
      | .devices =>
        if part = "null" then some .sink else if part = "full" then some .full else none
      | .around | .system => none)

/-- The folder that a part leads to. -/
def enter (d : Directory) (f : Folder) (part : String) : Except PathError Folder :=
  match d.entry? f part with
  | .error e => .error e
  | .ok none => .error .notFound
  | .ok (some (.folder f)) => .ok f
  | .ok (some _) => .error .notAFolder

def follow (d : Directory) : Folder → List String → Except PathError Folder
  | f, [] => .ok f
  | f, part :: rest => (d.enter f part).bind (follow d · rest)

def read (d : Directory) (s : String) : Except PathError String := do
  let path := Path.of s
  if Path.maxLength < s.utf8ByteSize then .error .nameTooLong
  let f ← d.follow path.start path.parts.dropLast
  match path.parts.getLast? with
  | none => .error .isAFolder
  | some part =>
    match ← d.entry? f part with
    | none => .error .notFound
    | some (.folder _) => .error .isAFolder
    | some (.file text) => if path.slash then .error .notAFolder else .ok text
    | some .sink | some .full => if path.slash then .error .notAFolder else .ok ""

/-- Replaces or makes a file. What is made outside the working directory is not seen again. -/
def write (d : Directory) (s text : String) : Except PathError Directory := do
  let path := Path.of s
  if Path.maxLength < s.utf8ByteSize then .error .nameTooLong
  let f ← d.follow path.start path.parts.dropLast
  match path.parts.getLast? with
  | none => .error .isAFolder
  | some part =>
    if path.slash then .error .isAFolder
    else
      match ← d.entry? f part with
      | some (.folder _) => .error .isAFolder
      | some .full => .error .noSpace
      | _ => .ok (if f = .working then d.put part text else d)

def fileSystem : FileSystem (StateM Directory) where
  read path := do
    let d ← get
    pure ((d.read path).mapError PathError.text)
  write path text := do
    let d ← get
    match d.write path text with
    | .error e => pure (.error e.text)
    | .ok d =>
      set d
      pure (.ok ())

end Directory
end StackCompiler.CommandLine
