import Shading.Text.Quoted
import Shading.Toml.Table

/-!
# Writing TOML

The keys of a table stand in alphabetical order, those with plain values first. A table inside it has a
header with its path, behind an empty line, and is indented by two blanks for each table around it.
-/

namespace Shading.Toml

/-- The letter that stands behind the backslash of an escape. -/
def escapeLetter? (c : Char) : Option Char :=
  [('"', '"'), ('\\', '\\'), ('\n', 'n'), ('\t', 't'), ('\r', 'r'), (Char.ofNat 8, 'b'),
   (Char.ofNat 12, 'f')].lookup c

/-- One character inside the quotes. Only the last sixteen bits of a code decide whether it is written as
a code, and only these are written. -/
def writtenChar (c : Char) : List Char :=
  match escapeLetter? c with
  | some l => ['\\', l]
  | none =>
    if c.toNat % 0x10000 < 31 then
      '\\' :: 'u' :: (Text.hexDigits 4 (c.toNat % 0x10000)).map Char.toUpper
    else [c]

/-- A basic string. -/
def written (s : String) : String := String.ofList ('"' :: s.toList.flatMap writtenChar ++ ['"'])

mutual

/-- A value on one line. -/
def Node.inlineText : Node → String
  | .string s => written s
  | .integer n => toString n
  | .float text => text
  | .boolean b => toString b
  | .array items => "[" ++ ", ".intercalate (inlineTexts items) ++ "]"
  | .table t => t.inlineText
  | .tables ts => "[" ++ ", ".intercalate (inlineTables ts) ++ "]"

def Table.inlineText : Table → String
  | .mk es _ => "\x7b" ++ ", ".intercalate (inlineFields es) ++ "\x7d"

def inlineTexts : List Node → List String
  | [] => []
  | n :: ns => n.inlineText :: inlineTexts ns

def inlineTables : List Table → List String
  | [] => []
  | t :: ts => t.inlineText :: inlineTables ts

def inlineFields : List (String × Node) → List String
  | [] => []
  | (key, n) :: es => (key ++ " = " ++ n.inlineText) :: inlineFields es

end

/-- A key with the text of its value, and whether the value has a header of its own. -/
structure Part where
  key : String
  isTable : Bool
  text : String

/-- The parts of a table in the order in which they are written. -/
def Part.ordered (parts : List Part) : List Part :=
  let sorted := parts.mergeSort fun a b => decide (a.key ≤ b.key)
  (sorted.filter fun p => !p.isTable) ++ sorted.filter Part.isTable

/-- The texts of parts, one behind the other. -/
def Part.join (parts : List Part) : String := String.join ((ordered parts).map Part.text)

/-- The path of a key of the table at a path. -/
def pathTo (path key : String) : String := if path.isEmpty then key else path ++ "." ++ key

mutual

/-- The text of a table at a path, its lines behind the given indentation. -/
def Table.textAt (indent path : String) : Table → String
  | .mk es _ => Part.join (parts indent path es)

/-- The keys of a table with their texts. -/
def parts (indent path : String) : List (String × Node) → List Part
  | [] => []
  | (key, n) :: es => part indent path key n :: parts indent path es

/-- A key of a table with its text. -/
def part (indent path key : String) : Node → Part
  | .table t =>
    ⟨key, true, "\n" ++ indent ++ "[" ++ pathTo path key ++ "]\n"
      ++ t.textAt (indent ++ "  ") (pathTo path key)⟩
  | .tables ts => ⟨key, true, tablesAt indent (pathTo path key) ts⟩
  | n => ⟨key, false, indent ++ key ++ " = " ++ n.inlineText ++ "\n"⟩

/-- The texts of the tables of a list. -/
def tablesAt (indent path : String) : List Table → String
  | [] => ""
  | t :: ts => "\n" ++ indent ++ "[[" ++ path ++ "]]\n" ++ t.textAt (indent ++ "  ") path
      ++ tablesAt indent path ts

end

def Table.text (t : Table) : String := t.textAt "" ""

end Shading.Toml
