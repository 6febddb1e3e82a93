import Shading.Path

/-!
# Files

What the commands need of the system they run on: files, a working directory, and two streams for
text. Any monad that offers these can run them.
-/

namespace Shading

/-- Why a file cannot be used. -/
inductive FileProblem where
  | missing
  | isDirectory
  | notDirectory
  | other (text : String)
deriving DecidableEq

def FileProblem.text : FileProblem → String
  | missing => "no such file or directory"
  | isDirectory => "is a directory"
  | notDirectory => "not a directory"
  | other s => s

/-- What was tried with a file, and why it failed. -/
structure FileError where
  action : String
  path : String
  problem : FileProblem
deriving DecidableEq

def FileError.message (e : FileError) : String := e.action ++ " " ++ e.path ++ ": " ++ e.problem.text

inductive FileKind where
  | file
  | directory
deriving DecidableEq

/-- The operations of the system that commands use. -/
class Host (m : Type → Type) where
  workingDir : m String
  kindOf : String → m (Except FileProblem FileKind)
  readFile : String → m (Except FileError ByteArray)
  /-- Makes a directory inside one that exists. -/
  makeDir : String → m (Except FileProblem Unit)
  /-- Makes a file or replaces what is in it. -/
  writeFile : String → String → m (Except FileProblem Unit)
  printOut : String → m Unit
  printError : String → m Unit

namespace Host

variable {m : Type → Type} [Monad m] [Host m]

/-- What stands at a path, for a message about it. -/
def stat (path : String) : m (Except FileError FileKind) := do
  return (← kindOf path).mapError fun p => ⟨"stat", path, p⟩

/-- Writes a file, for a message about it. -/
def write (path text : String) : m (Except FileError Unit) := do
  return (← writeFile path text).mapError fun p => ⟨"open", path, p⟩

/-- Makes the directories of a list, each inside the next, as far as they are missing. -/
def makeNested : List String → m (Except FileError Unit)
  | [] => return .ok ()
  | path :: outer => do
    match ← kindOf path with
    | .ok .directory => return .ok ()
    | .ok .file => return .error ⟨"mkdir", path, .notDirectory⟩
    | .error _ =>
      match ← makeNested outer with
      | .error e => return .error e
      | .ok () => return (← makeDir path).mapError fun p => ⟨"mkdir", path, p⟩

end Host

/-- A clean path and the directories around it, the innermost first. The working directory and the root
are left out, for they exist. -/
def Path.ancestors (path : String) : List String :=
  let start := if isAbsolute path then "/" else ""
  let cs := cleanComponents path
  ((List.range cs.length).map fun n => start ++ "/".intercalate (cs.take (n + 1))).reverse

/-- Makes a directory and those around it that are missing. -/
def Host.makeDirs {m : Type → Type} [Monad m] [Host m] (path : String) : m (Except FileError Unit) :=
  makeNested (Path.ancestors path)

end Shading
