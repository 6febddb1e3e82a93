import Shading.Toml.Table
import Shading.Toml.Token
import Shading.Value.Literal

/-!
# Reading TOML

A document is a sequence of assignments and headers. A header names the table that the assignments
behind it fill; a header in two pairs of brackets adds a table to a list. No key is assigned twice, and
no table has two headers. Of several faults the first one counts.
-/

namespace Shading.Toml

/-- Why a text is no document. -/
inductive ReadError where
  | malformed
  /-- Where a value is expected stands something that can never begin one. -/
  | noValue
deriving DecidableEq

/-- A missing value is told as the conversion that fails on it. -/
def ReadError.message : ReadError → String
  | malformed => "not a TOML document"
  | noValue => "interface conversion: interface \x7b\x7d is *errors.errorString, not string"

/-- What is there, or a malformed text. -/
def orMalformed {α : Type} : Option α → Except ReadError α
  | some a => .ok a
  | none => .error .malformed

/-- Each underscore of a number has a digit before it and something behind it. -/
def underscoresFit (isDigit : Char → Bool) (before : Bool) : List Char → Bool
  | [] => true
  | c :: rest => (c != '_' || (before && !rest.isEmpty)) && underscoresFit isDigit (isDigit c) rest

/-- The value of digits in a base. -/
def digitsIn? (base acc : Nat) : List Char → Option Nat
  | [] => some acc
  | c :: rest => match hexValue? c with
    | some d => if d < base then digitsIn? base (base * acc + d) rest else none
    | none => none

/-- The value of one or more digits in a base. -/
def wholeIn? (base : Nat) : List Char → Option Nat
  | [] => none
  | cs => digitsIn? base 0 cs

/-- A signed integer of 64 bits. -/
def inRange? (n : Int) : Option Int :=
  if -(Number.power 2 63 : Int) ≤ n ∧ n < (Number.power 2 63 : Int) then some n else none

/-- The value of an integer. A leading zero of three or more digits marks a base. -/
def integer? (text : String) : Option Int :=
  let cs := text.toList.filter (· != '_')
  let based (base : Nat) (digits : List Char) : Option Int :=
    (wholeIn? base digits).bind fun n => inRange? n
  let fits (isDigit : Char → Bool) : Bool := underscoresFit isDigit false text.toList
  match cs with
  | '0' :: mark :: digit :: digits =>
    if mark = 'x' then
      if fits fun c => (hexValue? c).isSome then based 16 (digit :: digits) else none
    else if !fits Char.isDigit then none
    else if mark = 'o' then based 8 (digit :: digits)
    else if mark = 'b' then based 2 (digit :: digits)
    else none
  | _ =>
    if !fits Char.isDigit then none
    else match cs with
      | '-' :: digits => (wholeIn? 10 digits).bind fun n => inRange? (-(n : Int))
      | '+' :: digits => based 10 digits
      | digits => based 10 digits

/-- The float is well-formed and finite, or is written as a word. -/
def floatOk (text : String) : Bool :=
  if ["inf", "+inf", "-inf", "nan", "+nan", "-nan"].contains text then true
  else underscoresFit Char.isDigit false text.toList &&
    (match Value.readFloat (text.toList.filter (· != '_')) with
      | .ok _ => true
      | .error _ => false)

mutual

/-- A value at the beginning of the tokens, read with the given number of steps. Each bracket takes two. -/
def value : Nat → List Token → Except ReadError (Node × List Token)
  | 0, _ => .error .malformed
  | n + 1, ts => match ts with
    | .string s :: rest => .ok (.string s, rest)
    | .boolean b :: rest => .ok (.boolean b, rest)
    | .integer text :: rest => orMalformed ((integer? text).map fun i => (.integer i, rest))
    | .float text :: rest => if floatOk text then .ok (.float text, rest) else .error .malformed
    | .leftBracket :: rest => (items n rest).map fun (vs, after) => (Node.ofItems vs, after)
    | .leftBrace :: .rightBrace :: rest => .ok (.table Table.empty.close, rest)
    | .leftBrace :: rest => (fields n Table.empty rest).map fun (t, after) => (.table t.close, after)
    | [] | .equals :: _ => .error .malformed
    | _ :: _ => .error .noValue

/-- The items of an array up to its closing bracket. -/
def items : Nat → List Token → Except ReadError (List Node × List Token)
  | 0, _ => .error .malformed
  | n + 1, ts => match ts with
    | .rightBracket :: rest => .ok ([], rest)
    | ts => match value n ts with
      | .ok (v, .comma :: rest) => (items n rest).map fun (vs, after) => (v :: vs, after)
      | .ok (v, .rightBracket :: rest) => .ok ([v], rest)
      | .ok _ => .error .malformed
      | .error e => .error e

/-- The fields of a table between braces, added to those of `t`. -/
def fields : Nat → Table → List Token → Except ReadError (Table × List Token)
  | 0, _, _ => .error .malformed
  | n + 1, t, ts => match ts with
    | .key key :: .equals :: rest => match splitKey key with
      | none => .error .malformed
      | some path => match value n rest with
        | .ok (v, .comma :: after) => fields n (t.put v path) after
        | .ok (v, .rightBrace :: after) => .ok (t.put v path, after)
        | .ok _ => .error .malformed
        | .error e => .error e
    | _ => .error .malformed

end

/-- A document that is read in part: what has been read, the table that assignments fill, and the headers
there have been. -/
structure Draft where
  root : Table := .empty
  current : Path := []
  headers : List String := []

namespace Draft

/-- The draft with a value for a key of the current table. The key must be new and its table open. -/
def assign? (d : Draft) (key : Path) (v : Node) : Option Draft :=
  match key.getLast? with
  | none => none
  | some name =>
    let add (t : Table) : Option Table :=
      if t.closed || (t.find? name).isSome then none else some (t.insert name v)
    (d.root.update? add (d.current ++ key.dropLast)).map fun root => { d with root }

/-- The draft behind the header of a table. -/
def enterTable? (d : Draft) (header : String) : Option Draft :=
  if d.headers.contains header then none
  else do
    let path ← splitKey header
    let root ← d.root.update? some path
    match root.get? path with
    | some (.table t) => if t.closed then none else some ⟨root, path, d.headers ++ [header]⟩
    | _ => some ⟨root, path, d.headers ++ [header]⟩

/-- The header names a part of what the other names. -/
def isPartOf (header whole : String) : Bool := (whole ++ ".").toList.isPrefixOf header.toList

/-- The draft behind the header of a new table of a list. The headers of its parts can come again. -/
def enterTables? (d : Draft) (header : String) : Option Draft := do
  let path ← splitKey header
  let root := (d.root.update? some path.dropLast).getD d.root
  let earlier ← match root.get? path with
    | none => some []
    | some (.tables ts) => some ts
    | some _ => none
  let headers := (d.headers.filter fun h => !isPartOf h header) ++ [header]
  some ⟨root.put (.tables (earlier ++ [Table.empty])) path, path, headers⟩

end Draft

/-- Reads tokens into a draft, with the given number of steps. -/
def readFrom : Nat → Draft → List Token → Except ReadError Table
  | 0, _, _ => .error .malformed
  | n + 1, d, ts => match ts with
    | [] => .ok d.root
    | .leftBracket :: .header text :: .rightBracket :: rest => do
      readFrom n (← orMalformed (d.enterTable? text)) rest
    | .leftBrackets :: .header text :: .rightBrackets :: rest => do
      readFrom n (← orMalformed (d.enterTables? text)) rest
    | .key key :: .equals :: rest => do
      let path ← orMalformed (splitKey key)
      let (v, after) ← value (2 * rest.length + 2) rest
      readFrom n (← orMalformed (d.assign? path v)) after
    | _ => .error .malformed

/-- The text without a byte order mark in front of it. -/
def dropMark : List Char → List Char
  | c :: rest => if c.toNat = 0xfeff then rest else c :: rest
  | [] => []

/-- The table of a document, if all of the text can be read. -/
def read (text : List Char) : Except ReadError Table := do
  let (ts, unread) := tokens (dropMark text)
  let t ← readFrom (ts.length + 1) {} ts
  if unread.isEmpty then return t else throw .malformed

end Shading.Toml
