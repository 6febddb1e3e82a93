import Shading.Command.Run

/-!
# The program

The command line on the real system. Everything that is decided is decided by `Command.run`; here its
operations are handed to the files and streams of the system.
-/

namespace Shading

/-- The problem that an error of the system stands for. -/
def FileProblem.ofError : IO.Error → FileProblem
  | .noFileOrDirectory .. => .missing
  | .inappropriateType _ code _ => if code = 21 then .isDirectory else .notDirectory
  | .alreadyExists .. => .other "file exists"
  | .permissionDenied .. => .other "permission denied"
  | e => .other (toString e)

/-- The result of an operation of the system, or the problem it has run into. -/
def attempt {α : Type} (action : IO α) : IO (Except FileProblem α) := do
  try
    return .ok (← action)
  catch e => return .error (.ofError e)

instance : Host IO where
  workingDir := do return (← IO.currentDir).toString
  kindOf path := attempt do
    let real ← IO.FS.realPath path
    return if ← real.isDir then .directory else .file
  readFile path := do
    return (← attempt (IO.FS.readBinFile path)).mapError fun
      | .isDirectory => ⟨"read", path, .isDirectory⟩
      | p => ⟨"open", path, p⟩
  makeDir path := attempt (IO.FS.createDir path)
  writeFile path text := attempt (IO.FS.writeFile path text)
  printOut s := IO.print s
  printError s := IO.eprint s

end Shading

/-- Runs the command line; the exit code is zero if everything went well. -/
def main (args : List String) : IO UInt32 := do
  return (← Shading.Command.run args).code
