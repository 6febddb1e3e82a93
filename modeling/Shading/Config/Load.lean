import Shading.Config
import Shading.Files
import Shading.Source

/-!
# Finding the configuration

The settings file is named, or it is the first one in the working directory and the directories around
it. Without one the defaults hold.
-/

namespace Shading.Config

inductive LoadError where
  | unreadable (error : FileError)
  | unusable (path : String) (error : ConfigError)
deriving DecidableEq

def LoadError.message : LoadError → String
  | unreadable e => "config: " ++ e.message
  | unusable path e => "config: " ++ path ++ ": " ++ e.message

variable {m : Type → Type} [Monad m] [Host m]

def load (path : String) : m (Except LoadError Config) := do
  match ← Host.readFile path with
  | .error e => return .error (.unreadable e)
  | .ok bytes =>
    let text := (Source.ofBytes bytes).glyphs.map Text.Glyph.shown
    return (Config.read text).mapError (.unusable path)

/-- The first settings file in the directories given. -/
def findIn : List String → m (Option String)
  | [] => return none
  | dir :: dirs => do
    let path := Path.join dir fileName
    match ← Host.kindOf path with
    | .ok .file => return some path
    | _ => findIn dirs

/-- An absolute path and the directories around it up to the root, the innermost first. -/
def upwards (path : String) : List String := Path.ancestors path ++ ["/"]

/-- The settings file in a directory or the nearest one around it. -/
def find (dir : String) : m (Option String) := do
  findIn (upwards (Path.absolute (← Host.workingDir) dir))

end Shading.Config
