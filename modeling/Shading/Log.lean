import Shading.Check.Context
import Shading.Number.Decimal
import Shading.Text.Fields
import Shading.Text.Quoted

/-!
# The log

What happens while a shader is compiled can be logged. A record has a level, a message and values with
names; it is written on one line, and values that would not stand out by themselves are quoted. A level
is a number; the four that have names are the marks by which others are written.
-/

namespace Shading.Log

/-- How much a record matters. -/
structure Level where
  value : Int64
deriving DecidableEq, Inhabited

namespace Level

def debug : Level := ⟨-4⟩
def info : Level := ⟨0⟩
def warn : Level := ⟨4⟩
def error : Level := ⟨8⟩

def named : List (String × Level) :=
  [("DEBUG", debug), ("INFO", info), ("WARN", warn), ("ERROR", error)]

/-- The level with how far it is above a named one. -/
def textFrom (name : String) (base l : Level) : String :=
  let diff := (l.value - base.value).toInt
  if diff = 0 then name else name ++ (if 0 < diff then "+" else "") ++ toString diff

/-- The highest named level that is not above the level, or else the lowest one, and the difference. -/
def text (l : Level) : String :=
  if l.value < info.value then textFrom "DEBUG" debug l
  else if l.value < warn.value then textFrom "INFO" info l
  else if l.value < error.value then textFrom "WARN" warn l
  else textFrom "ERROR" error l

/-- A letter as a capital; the dotless `ı` is a small `I`. -/
def capital (c : Char) : Char := if c = 'ı' then 'I' else c.toUpper

/-- The level of a name, in which case does not matter, and of a signed number behind it. -/
def parse? (s : String) : Option Level := do
  let isSign (c : Char) : Bool := c == '+' || c == '-'
  let name := s.toList.takeWhile fun c => !isSign c
  let rest := s.toList.dropWhile fun c => !isSign c
  let offset ← if rest.isEmpty then some 0 else Number.decimal? (String.ofList rest)
  let base ← named.lookup (String.ofList (name.map capital))
  return ⟨base.value + Int64.ofInt offset⟩

end Level

structure Record where
  level : Level
  message : String
  values : List (String × String)
deriving DecidableEq, Inhabited

/-- A character that makes a value be quoted. -/
def needsQuotes (c : Char) : Bool :=
  if c.toNat < 128 then decide (c.toNat < 32) || c == ' ' || c == '=' || c == '"'
  else c == '�' || Text.isSpace c || !Text.isPrintable c

/-- A value as it is written on a line. -/
def value (s : String) : String :=
  if s.isEmpty || s.toList.any needsQuotes then Text.quoted s else s

def Record.line (r : Record) : String :=
  "level=" ++ r.level.text ++ " msg=" ++ value r.message
    ++ String.join (r.values.map fun (k, v) => " " ++ value k ++ "=" ++ value v) ++ "\n"

end Shading.Log

namespace Shading

def bracketed (names : List Ident) : String := "[" ++ " ".intercalate names ++ "]"

def Event.record (e : Event) : Log.Record :=
  let (message, values) := match e with
    | parsed n => ("shadegen: parsed", [("decls", toString n)])
    | openedFn f fns => ("emit: expanded function", [("ident", f), ("deps", bracketed fns)])
    | openedStruct s => ("emit: expanded struct", [("ident", s)])
    | prunedLoop x span => ("emit: pruned for statement", [("ident", x), ("span", span.place)])
    | prunedBranch test span =>
      ("emit: pruned if statement", [("condition", toString test), ("span", span.place)])
    | wroteStage stage structs fns =>
      ("emit: rendered stage",
        [("stage", stage.name), ("structs", toString structs), ("fns", toString fns)])
    | emitted blocks vertexFns fragmentFns =>
      ("shadegen: emitted",
        [("uniform_blocks", toString blocks), ("vertex_fns", toString vertexFns),
         ("fragment_fns", toString fragmentFns)])
  ⟨.debug, message, values⟩

end Shading
