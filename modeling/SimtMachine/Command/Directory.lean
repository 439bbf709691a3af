import SimtMachine.Command.Script
import SimtMachine.Text.Split

/-!
# Scripts on a directory

Runs a script on a directory that is a value: some files with their texts, in directories that are
there because of the files. A relative path begins at the directory, which is itself a temporary
one, and an absolute path at the root. Outside the directory only the usual top directories and some
devices are there.
-/

namespace SimtMachine

/-- Files with their texts, each by the names on the way to it from the root. -/
structure Directory where
  files : List (List String × String)

namespace Directory

/-- What a device does with a text that is written to it. Each reads as empty. -/
inductive Sink
  | discard
  | display
  | full
deriving DecidableEq

/-- What stands at the end of a way. -/
inductive Entry
  | file (way : List String)
  | directory
  | device (v : Sink)
  /-- nothing yet, in a directory that is there -/
  | missing (way : List String)

inductive Purpose
  | read | write
deriving DecidableEq

def notFound : String := "No such file or directory (os error 2)"

def notDirectory : String := "Not a directory (os error 20)"

def isDirectory : String := "Is a directory (os error 21)"

def nameTooLong : String := "File name too long (os error 36)"

def noSpace : String := "No space left on device (os error 28)"

/-- The way from the root to the directory. The directory has a name that no path contains. -/
def home : List String := ["tmp", ""]

/-- The devices, each by the names on the way to it. Nothing comes from standard input. -/
def devices : List (List String × Sink) :=
  [(["dev", "null"], .discard), (["dev", "full"], .full), (["dev", "stdin"], .discard),
    (["dev", "stdout"], .display), (["dev", "stderr"], .discard)]

/-- The directories in the root that are there anyway. -/
def topDirectories : List String := ["bin", "dev", "etc", "lib", "proc", "tmp", "usr", "var"]

def maxNameSize : Nat := 255

def maxPathSize : Nat := 4095

/-- The names on the way that a path describes. -/
def names (path : String) : List String :=
  (Text.split (· = '/') path.toList).map String.ofList

def hasDirectory (d : Directory) (way : List String) : Bool :=
  way.isPrefixOf home || topDirectories.any (way = [·]) ||
    d.files.any fun f ↦ way.isPrefixOf f.1 && f.1 ≠ way

def file? (d : Directory) (way : List String) : Option String := d.files.lookup way

/-- What is at the end of a way that leads to no directory. -/
def leaf (d : Directory) (way : List String) : Entry :=
  match devices.lookup way with
  | some v => .device v
  | none => if (d.file? way).isSome then .file way else .missing way

/-- Follows names from the directory at the end of the way `here`. The directory above the root is
the root. A file to be written cannot have a separator after its name. -/
def follow (d : Directory) (p : Purpose) (here : List String) : List String → Except String Entry
  | [] => .ok .directory
  | name :: rest =>
    if name = "" ∨ name = "." then follow d p here rest
    else if name = ".." then follow d p here.dropLast rest
    else if p = .write ∧ rest ≠ [] ∧ rest.all (·.isEmpty) then .error isDirectory
    else if name.utf8ByteSize > maxNameSize then .error nameTooLong
    else
      let way := here ++ [name]
      if d.hasDirectory way then follow d p way rest
      else match d.leaf way, rest with
        | e, [] => .ok e
        | .missing _, _ => .error notFound
        | _, _ => .error notDirectory

/-- What a path leads to. The empty path leads nowhere. -/
def find (d : Directory) (p : Purpose) (path : String) : Except String Entry :=
  if path.isEmpty then .error notFound
  else if path.utf8ByteSize > maxPathSize then .error nameTooLong
  else d.follow p (if path.startsWith "/" then [] else home) (names path)

def read (d : Directory) (path : String) : Except String String :=
  match d.find .read path with
  | .error e => .error e
  | .ok (.file way) => .ok ((d.file? way).getD "")
  | .ok (.device _) => .ok ""
  | .ok .directory => .error isDirectory
  | .ok (.missing _) => .error notFound

/-- The directory with a text in the file at the end of a way. -/
def store (d : Directory) (way : List String) (text : String) : Directory :=
  ⟨(way, text) :: d.files.filter fun f ↦ f.1 ≠ way⟩

/-- The directory with a text in the file that a path leads to, and what is printed if the path
leads to a device instead. -/
def write (d : Directory) (path text : String) : Except String (Directory × String) :=
  match d.find .write path with
  | .error e => .error e
  | .ok (.file way) | .ok (.missing way) => .ok (d.store way text, "")
  | .ok (.device .discard) => .ok (d, "")
  | .ok (.device .display) => .ok (d, text)
  | .ok (.device .full) => if text.isEmpty then .ok (d, "") else .error noSpace
  | .ok .directory => .error isDirectory

/-- A directory with the given files, each by its path. -/
def ofFiles (files : List (String × String)) : Directory :=
  ⟨files.map fun (path, text) ↦
    (home ++ (names path).filter fun n ↦ n ≠ "" ∧ n ≠ ".", text)⟩

end Directory

/-- Runs a script on a directory: its result, the directory afterwards and what it printed. -/
def Script.runOn {α : Type} : Script α → Directory → α × Directory × String
  | .done a, d => (a, d, "")
  | .print s next, d =>
    let (a, d, out) := next.runOn d
    (a, d, s ++ out)
  | .read path next, d => (next (d.read path)).runOn d
  | .write path text next, d =>
    match d.write path text with
    | .ok (d, shown) =>
      let (a, d, out) := (next (.ok ())).runOn d
      (a, d, shown ++ out)
    | .error e => (next (.error e)).runOn d

end SimtMachine
