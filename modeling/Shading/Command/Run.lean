import Shading.Bindings
import Shading.Command.Flags
import Shading.Command.Report
import Shading.Config.Load

/-!
# Running commands

A command first reads its flags, then counts its arguments, then loads the settings, which flags can
override. A file that fails does not keep the others from being compiled. A settings file that has no
value where one is expected makes the run break down.
-/

namespace Shading.Command

/-- The files that are written for a shader. -/
structure Outputs where
  vertex : String
  fragment : String
  bindings : String
deriving DecidableEq

namespace Outputs

/-- The files for a source: its name without the extension, in the output directory. -/
def ofSource (source dir vertexExt fragmentExt : String) : Outputs :=
  let base := Path.base source
  let stem := Path.join dir (Text.trimEnd (Path.ext base) base)
  ⟨stem ++ vertexExt, stem ++ fragmentExt, stem ++ ".bindings.toml"⟩

/-- The files in the order in which they are written. -/
def list (o : Outputs) (withBindings : Bool) : List String :=
  if withBindings then [o.vertex, o.fragment, o.bindings] else [o.vertex, o.fragment]

end Outputs

/-- The settings of a run, made ready for use. -/
structure Setup where
  config : Config
  level : Log.Level
  options : Glsl.Options
  builtins : Builtins

/-- The settings made ready, if all of them can be used. -/
def Setup.ofConfig (c : Config) : Except SettingsError Setup := do
  let options ← c.glsl.options
  let level ← c.level
  let builtins ← c.extraBuiltins
  return ⟨c, level, options, builtins⟩

/-- The settings with those that flags override. -/
def Flags.override (fs : Flags) (c : Config) : Config :=
  { c with
    glsl.version := Config.orDefault fs.glsl c.glsl.version
    logLevel := Config.orDefault fs.logLevel c.logLevel }

inductive Outcome where
  | success
  | failure
  /-- The run breaks down with a message before it has done anything. -/
  | breakdown (message : String)
deriving DecidableEq

namespace Outcome

/-- A run over files succeeds if none of them fails. -/
def ofFailures (failed : Nat) : Outcome := if failed = 0 then success else failure

def code : Outcome → UInt32
  | success => 0
  | failure => 1
  | breakdown _ => 2

end Outcome

/-- Why a command is not carried out. -/
inductive Refusal where
  | error (message : String)
  | breakdown (message : String)
deriving DecidableEq

/-- Settings that cannot be loaded are an error, but for a missing value. -/
def Refusal.ofLoadError : Config.LoadError → Refusal
  | .unusable _ (.notToml .noValue) => breakdown Toml.ReadError.noValue.message
  | e => error e.message

variable {m : Type → Type} [Monad m] [Host m]

/-- The settings that the flags name, or those that are found from the working directory. -/
def loadConfig (fs : Flags) : m (Except Config.LoadError Config) := do
  if !fs.config.isEmpty then Config.load fs.config
  else match ← Config.find "." with
    | some path => Config.load path
    | none => return .ok {}

/-- The settings of a run, or why there are none. -/
def loadSetup (fs : Flags) : m (Except Refusal Setup) := do
  match ← loadConfig fs with
  | .error e => return .error (.ofLoadError e)
  | .ok c => return (Setup.ofConfig (fs.override c)).mapError fun e => .error e.message

/-- Prints the events that are logged at the level of the run. -/
def logEvents (level : Log.Level) : List Event → m Unit
  | [] => return ()
  | e :: es => do
    if level.value ≤ e.record.level.value then Host.printError e.record.line
    logEvents level es

/-- The bytes of a source file, or the message that tells why there are none. -/
def readSource (path : String) : m (Except String ByteArray) := do
  match ← Host.stat path with
  | .error e => return .error e.message
  | .ok .directory => return .error ("'" ++ path ++ "' is a directory, please provide a file")
  | .ok .file => return (← Host.readFile path).mapError FileError.message

/-- Compiles a file and prints what is wrong with it. -/
def compileFile (s : Setup) (path : String) : m (Option Compiled) := do
  match ← readSource path with
  | .error message =>
    Host.printError (errorLine message)
    return none
  | .ok bytes =>
    let src := Source.ofBytes bytes
    let (result, events) := Shading.compile s.options s.builtins src
    logEvents s.level events
    match result with
    | .ok c => return some c
    | .error e =>
      Host.printError (diagnostic path src e)
      return none

/-- Writes files one after another up to the first failure. -/
def writeFiles : List (String × String) → m (Except FileError Unit)
  | [] => return .ok ()
  | (path, text) :: more => do
    match ← Host.write path text with
    | .ok () => writeFiles more
    | .error e => return .error e

def writeOutputs (s : Setup) (o : Outputs) (c : Compiled) (withBindings : Bool) :
    m (Except FileError Unit) := do
  match ← Host.makeDirs (Path.dir o.vertex) with
  | .error e => return .error e
  | .ok () =>
    let bindings := Bindings.ofCompiled (Glsl.dialect s.options) c
    let texts := [(o.vertex, c.vertexText), (o.fragment, c.fragmentText)]
    writeFiles (if withBindings then texts ++ [(o.bindings, bindings.text)] else texts)

/-- The texts of both stages, as they are printed. -/
def stagesText (path : String) (c : Compiled) : String :=
  "// " ++ path ++ ": vertex\n" ++ c.vertexText ++ "\n// " ++ path ++ ": fragment\n" ++ c.fragmentText

/-- Compiles a file and prints or writes its texts. Tells whether it succeeded. -/
def compileOne (s : Setup) (fs : Flags) (path : String) : m Bool := do
  match ← compileFile s path with
  | none => return false
  | some c =>
    if fs.stdout then
      Host.printOut (stagesText path c)
      return true
    else
      let out := s.config.output
      let dir := Config.orDefault fs.outDir out.dir
      let o := Outputs.ofSource path dir out.vertexExt out.fragmentExt
      let withBindings := fs.bindings || out.bindings
      match ← writeOutputs s o c withBindings with
      | .error e =>
        Host.printError (errorLine e.message)
        return false
      | .ok () =>
        Host.printOut (successLine path ("-> " ++ ", ".intercalate (o.list withBindings)))
        return true

/-- Compiles a file only to see whether it can be. -/
def checkOne (s : Setup) (path : String) : m Bool := do
  match ← compileFile s path with
  | none => return false
  | some _ =>
    Host.printOut (successLine path "is valid")
    return true

def countFailures (run : String → m Bool) : List String → m Nat
  | [] => return 0
  | path :: paths => do
    let ok ← run path
    let more ← countFailures run paths
    return if ok then more else more + 1

def fail (message : String) : m Outcome := do
  Host.printError (errorLine message)
  return .failure

/-- Prints why a command is not carried out. -/
def refuse : Refusal → m Outcome
  | .error message => fail message
  | .breakdown message => do
    Host.printError ("panic: " ++ message ++ "\n")
    return .breakdown message

/-- Writes a settings file with the defaults. -/
def writeDefaults (force : Bool) : m Outcome := do
  let exists_ ← Host.kindOf Config.fileName
  if exists_.toBool && !force then
    fail (Config.fileName ++ " already exists, use --force to overwrite it")
  else match ← Host.write Config.fileName ({} : Config).text with
    | .error e => fail e.message
    | .ok () =>
      Host.printOut (successLine Config.fileName "written")
      return .success

/-- Why the arguments do not suit the command. -/
def argsProblem? (n : Name) (args : List String) : Option String :=
  match n, args with
  | .compile, [] | .check, [] => some "requires at least 1 arg(s), only received 0"
  | .init, x :: _ | .version, x :: _ =>
    some ("unknown command " ++ Text.quoted x ++ " for " ++ Text.quoted n.path)
  | _, _ => none

def versionText : String := "0.1.0-dev"

def usage : String :=
  "Usage:\n  shadec compile [flags] <input>...\n  shadec check [flags] <input>...\n"
    ++ "  shadec init [flags]\n  shadec version\n"

def runCommand (n : Name) (fs : Flags) (args : List String) : m Outcome := do
  match ← loadSetup fs with
  | .error r => refuse r
  | .ok s => match n with
    | .compile =>
      let failed ← countFailures (compileOne s fs) args
      if !fs.stdout then Host.printOut (summary args.length failed)
      return .ofFailures failed
    | .check =>
      let failed ← countFailures (checkOne s) args
      Host.printOut (summary args.length failed)
      return .ofFailures failed
    | .init => writeDefaults fs.force
    | .version =>
      Host.printOut ("shadec version " ++ versionText ++ "\n")
      return .success
    | .root => return .success

def run (words : List String) : m Outcome := do
  match findCommand words with
  | .error x => fail ("unknown command " ++ Text.quoted x ++ " for " ++ Text.quoted Name.root.path)
  | .ok (n, rest) => match readFlags n rest with
    | .error e => fail (e.message ++ "\nrun '" ++ n.path ++ " --help' for usage")
    | .ok (fs, args) =>
      if fs.help || n == .root then
        Host.printOut usage
        return .success
      else match argsProblem? n args with
        | some message => fail message
        | none => runCommand n fs args

end Shading.Command
