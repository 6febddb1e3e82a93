import Shading.Builtin
import Shading.Glsl.Dialect
import Shading.Log
import Shading.Toml.Decode
import Shading.Toml.Printer
import Shading.Toml.Reader

/-!
# Configuration

The settings of a project: the GLSL dialect, where the texts go, what is logged, and the builtin
functions that the environment offers beside those of the language. They are kept in a TOML file, in
which every key is optional and an empty text stands for the default.
-/

namespace Shading

open Toml

/-- The GLSL dialect as it is chosen in the settings. -/
structure GlslSettings where
  version : String := "330"
  precision : String := "highp"
  debugInfo : Bool := false
deriving DecidableEq, Inhabited

/-- Where the texts of a shader go. -/
structure OutputSettings where
  dir : String := "."
  vertexExt : String := ".vert"
  fragmentExt : String := ".frag"
  bindings : Bool := false
deriving DecidableEq, Inhabited

/-- A builtin function of the environment, its types given by name. -/
structure BuiltinSettings where
  name : String
  params : List String
  result : String
deriving DecidableEq, Inhabited

structure Config where
  glsl : GlslSettings := {}
  output : OutputSettings := {}
  logLevel : String := "warn"
  builtins : List BuiltinSettings := []
deriving DecidableEq, Inhabited

inductive SettingsError where
  | version (fault : Glsl.Version.Fault)
  | precision (text : String)
  | logLevel (text : String)
  | namelessBuiltin
  | resultTy (builtin ty : String)
  | paramTy (builtin : String) (number : Nat) (ty : String)
deriving DecidableEq

def SettingsError.message : SettingsError → String
  | version fault => fault.message
  | precision s => "invalid precision " ++ Text.quoted s ++ ", expected highp or mediump"
  | logLevel s => "invalid log level " ++ Text.quoted s
  | namelessBuiltin => "builtin without a name"
  | resultTy f t => "builtin " ++ f ++ ": return: unknown type " ++ Text.quoted t
  | paramTy f n t =>
    "builtin " ++ f ++ ": parameter " ++ toString n ++ ": unknown type " ++ Text.quoted t

namespace GlslSettings

def options (s : GlslSettings) : Except SettingsError Glsl.Options := do
  let version ← (Glsl.Version.parse s.version).mapError .version
  if s.precision = "highp" then return ⟨version, s.debugInfo, true⟩
  else if s.precision = "mediump" then return ⟨version, s.debugInfo, false⟩
  else throw (.precision s.precision)

def table (s : GlslSettings) : Table :=
  .ofEntries [("version", .string s.version), ("precision", .string s.precision),
    ("debug-info", .boolean s.debugInfo)]

def ofTable? (t : Table) : Option GlslSettings := do
  return ⟨← t.string? "version", ← t.string? "precision", ← t.boolean? "debug-info"⟩

end GlslSettings

namespace OutputSettings

def table (s : OutputSettings) : Table :=
  .ofEntries [("dir", .string s.dir), ("vertex-ext", .string s.vertexExt),
    ("fragment-ext", .string s.fragmentExt), ("bindings", .boolean s.bindings)]

def ofTable? (t : Table) : Option OutputSettings := do
  return ⟨← t.string? "dir", ← t.string? "vertex-ext", ← t.string? "fragment-ext",
    ← t.boolean? "bindings"⟩

end OutputSettings

namespace BuiltinSettings

/-- The type of a name; an empty one means that there is no value. -/
def ty? (name : String) : Option Ty :=
  if name = "" ∨ name = "void" then some .void else (BasicTy.ofName? name).map .basic

/-- The types of the parameters from the given number on. -/
def paramTys (f : String) (number : Nat) : List String → Except SettingsError (List Ty)
  | [] => .ok []
  | name :: names => match ty? name with
    | none => .error (.paramTy f number name)
    | some t => (paramTys f (number + 1) names).map (t :: ·)

def builtin (s : BuiltinSettings) : Except SettingsError Builtin := do
  if s.name.isEmpty then throw .namelessBuiltin
  match ty? s.result with
  | none => throw (.resultTy s.name s.result)
  | some result => return ⟨s.name, [⟨← paramTys s.name 1 s.params, result⟩]⟩

def table (s : BuiltinSettings) : Table :=
  .ofEntries [("name", .string s.name), ("params", .array (s.params.map .string)),
    ("return", .string s.result)]

def ofTable? (t : Table) : Option BuiltinSettings := do
  return ⟨← t.string? "name", ← t.strings? "params", ← t.string? "return"⟩

end BuiltinSettings

namespace Config

def fileName : String := "shadegen.toml"

/-- The level from which on records are logged. -/
def level (c : Config) : Except SettingsError Log.Level :=
  match Log.Level.parse? c.logLevel with
  | some l => .ok l
  | none => .error (.logLevel c.logLevel)

/-- The builtin functions of the environment. Functions of one name stay apart. -/
def extraBuiltins (c : Config) : Except SettingsError Builtins := c.builtins.mapM BuiltinSettings.builtin

/-- The first reason why the settings cannot be used. -/
def validate (c : Config) : Except SettingsError Unit := do
  let _ ← c.glsl.options
  let _ ← c.level
  let _ ← c.extraBuiltins
  return ()

def orDefault (s fallback : String) : String := if s.isEmpty then fallback else s

/-- The settings with defaults for what is empty. -/
def filled (c : Config) : Config :=
  let d : Config := {}
  { c with
    glsl.version := orDefault c.glsl.version d.glsl.version
    glsl.precision := orDefault c.glsl.precision d.glsl.precision
    output.dir := orDefault c.output.dir d.output.dir
    output.vertexExt := orDefault c.output.vertexExt d.output.vertexExt
    output.fragmentExt := orDefault c.output.fragmentExt d.output.fragmentExt
    logLevel := orDefault c.logLevel d.logLevel }

/-- Builtin functions are left out if there are none. -/
def table (c : Config) : Table :=
  .ofEntries ([("glsl", .table c.glsl.table), ("output", .table c.output.table),
    ("log", .table (.ofEntries [("level", .string c.logLevel)]))] ++
    (if c.builtins.isEmpty then [] else [("builtins", .tables (c.builtins.map BuiltinSettings.table))]))

def text (c : Config) : String := c.table.text

def ofTable? (t : Table) : Option Config := do
  return ⟨← GlslSettings.ofTable? (← t.table? "glsl"), ← OutputSettings.ofTable? (← t.table? "output"),
    ← (← t.table? "log").string? "level", ← (← t.tables? "builtins").mapM BuiltinSettings.ofTable?⟩

end Config

inductive ConfigError where
  | notToml (error : Toml.ReadError)
  | wrongKind
  | invalid (error : SettingsError)
deriving DecidableEq

def ConfigError.message : ConfigError → String
  | notToml e => e.message
  | wrongKind => "a value has the wrong type"
  | invalid e => e.message

def Config.read (text : List Char) : Except ConfigError Config := do
  match Toml.read text with
  | .error e => throw (.notToml e)
  | .ok t => match Config.ofTable? t with
    | none => throw .wrongKind
    | some c =>
      c.filled.validate.mapError .invalid
      return c.filled

end Shading
