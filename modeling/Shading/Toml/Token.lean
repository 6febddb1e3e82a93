import Shading.Toml.Key
import Shading.Toml.Quoted

/-!
# TOML tokens

Where a key is expected, the text is a key, an equals sign or the header of a table; where a value is
expected, it is a part of a value. Behind a newline a key is expected again, unless an array is open.
A text is read as far as it goes: what cannot be read is left over.
-/

namespace Shading.Toml

/-- A token. Keys, headers and numbers are kept as they are written, apart from escapes in keys. -/
inductive Token where
  | key (text : String)
  /-- What stands between the brackets of a header. -/
  | header (text : String)
  | equals
  | comma
  | leftBracket
  | rightBracket
  /-- Two brackets in front of the header of a list of tables. -/
  | leftBrackets
  /-- Two brackets behind the header of a list of tables. -/
  | rightBrackets
  | leftBrace
  | rightBrace
  | string (s : String)
  | integer (text : String)
  | float (text : String)
  | boolean (b : Bool)
deriving DecidableEq

/-- A bracket that has been opened inside a value. -/
inductive Bracket where
  | square
  | curly
deriving DecidableEq

/-- What is expected next, and the brackets that are open, the innermost first. -/
structure Mode where
  wantsValue : Bool := false
  brackets : List Bracket := []

namespace Mode

def forKey (m : Mode) : Mode := { m with wantsValue := false }
def forValue (m : Mode) : Mode := { m with wantsValue := true }
def open_ (m : Mode) (b : Bracket) : Mode := { m with brackets := b :: m.brackets }

/-- A bracket of the given kind is the innermost open one. -/
def inside (m : Mode) (b : Bracket) : Bool := m.brackets.head? == some b

def close (m : Mode) : Mode := { m with brackets := m.brackets.tail }

/-- What is expected behind a newline. -/
def nextLine (m : Mode) : Mode := if m.inside .square then m else m.forKey

/-- What is expected behind a comma. -/
def nextItem (m : Mode) : Mode := if m.inside .curly then m.forKey else m

end Mode

/-- The text of a key, read with the given number of steps, and what follows it. -/
def keyChars : Nat → List Char → Option (List Char × List Char)
  | 0, _ => none
  | _ + 1, [] => some ([], [])
  | n + 1, c :: rest =>
    let andThen (part : List Char) (after : List Char) : Option (List Char × List Char) :=
      (keyChars n after).map fun (s, r) => (part ++ s, r)
    if c = '=' then some ([], c :: rest)
    else if c = '"' then
      (basicChars false true .none rest).bind fun (s, after) => andThen ('"' :: s ++ ['"']) after
    else if c = '\'' then
      (literalChars false rest).bind fun (s, after) => andThen ('\'' :: s ++ ['\'']) after
    else if isBlank c then
      match rest.dropWhile isBlank with
      | '.' :: after =>
        andThen (' ' :: rest.takeWhile isBlank ++ '.' :: after.takeWhile isBlank) (after.dropWhile isBlank)
      | after => some ([], after)
    else if c = '.' ∨ isBare c then andThen [c] rest
    else none

/-- The text of a header, if there is any, and what follows the bracket that closes it. -/
def headerText? (cs : List Char) : Option (List Token × List Char) :=
  let inside (c : Char) : Bool := c != ']' && c != '['
  match cs.takeWhile inside, cs.dropWhile inside with
  | [], ']' :: after => some ([], after)
  | text, ']' :: after => some ([.header (String.ofList text)], after)
  | _, _ => none

/-- The tokens of a header whose opening bracket has been read, and what follows it. A header that is not
closed gives its opening brackets alone, and nothing can be read behind them. -/
def header (cs : List Char) : List Token × Option (List Char) :=
  match cs with
  | '[' :: rest => match headerText? rest with
    | some (text, ']' :: after) => (.leftBrackets :: text ++ [.rightBrackets], some after)
    | _ => ([.leftBrackets], none)
  | _ => match headerText? cs with
    | some (text, after) => (.leftBracket :: text ++ [.rightBracket], some after)
    | none => ([.leftBracket], none)

/-- The digits that may follow a mark of a base. -/
def baseDigit? : Char → Option (Char → Bool)
  | 'x' => some fun c => (hexValue? c).isSome || c == '_'
  | 'o' => some fun c => ('0' ≤ c && c ≤ '7') || c == '_'
  | 'b' => some fun c => c == '0' || c == '1' || c == '_'
  | _ => none

/-- What has been read of a decimal number: a point, the mark of an exponent, a digit, and whether the
mark was the last character. -/
structure Seen where
  point : Bool := false
  exponent : Bool := false
  digit : Bool := false
  mark : Bool := false

/-- What has been read with one more character, if a number can go on with it. A digit follows a point. -/
def Seen.next? (seen : Seen) (c : Char) (following : Option Char) : Option Seen :=
  if c = '.' then
    if seen.point || !seen.digit || !(following.any Char.isDigit) then none
    else some { seen with point := true, mark := false }
  else if c = 'e' ∨ c = 'E' then some { seen with exponent := true, mark := true }
  else if c.isDigit then some { seen with digit := true, mark := false }
  else some { seen with mark := false }

/-- The character belongs to the number before it. -/
def Seen.takes (seen : Seen) (c : Char) : Bool :=
  c == '.' || c == 'e' || c == 'E' || c.isDigit || c == '_' || (seen.mark && (c == '+' || c == '-'))

/-- The characters of a decimal number, what has been read of it, and the rest. -/
def decimalChars (seen : Seen) : List Char → Option (List Char × Seen × List Char)
  | [] => some ([], seen, [])
  | c :: rest =>
    if seen.takes c then
      (seen.next? c rest.head?).bind fun seen' =>
        (decimalChars seen' rest).map fun (s, last, after) => (c :: s, last, after)
    else some ([], seen, c :: rest)

/-- The text begins with the given word. -/
def after? (word : String) (cs : List Char) : Option (List Char) :=
  if word.toList.isPrefixOf cs then some (cs.drop word.length) else none

/-- A decimal number with its sign, if it has one. -/
def decimal? (sign : List Char) (cs : List Char) : Option (Token × List Char) :=
  match decimalChars {} cs with
  | some (s, seen, after) =>
    let text := String.ofList (sign ++ s)
    if !seen.digit then none
    else some (if seen.point || seen.exponent then .float text else .integer text, after)
  | none => none

/-- A number. Dates and times are not read. -/
def number? (cs : List Char) : Option (Token × List Char) :=
  match cs with
  | '0' :: mark :: rest =>
    match baseDigit? mark with
    | some isDigit =>
      let digits := rest.takeWhile isDigit
      if digits.isEmpty then none
      else some (.integer (String.ofList ('0' :: mark :: digits)), rest.dropWhile isDigit)
    | none => if mark.isAlpha then none else decimal? [] cs
  | c :: rest =>
    if c = '+' ∨ c = '-' then
      match after? "inf" rest, after? "nan" rest with
      | some after, _ => some (.float (String.ofList [c] ++ "inf"), after)
      | none, some after => some (.float (String.ofList [c] ++ "nan"), after)
      | none, none => decimal? [c] rest
    else decimal? [] cs
  | [] => none

/-- The words that are values. -/
def words : List (String × Token) :=
  [("true", .boolean true), ("false", .boolean false), ("inf", .float "inf"), ("nan", .float "nan")]

def word? (cs : List Char) : Option (Token × List Char) :=
  words.findSome? fun (w, t) => (after? w cs).map fun after => (t, after)

/-- What comes next in a text that is not empty: tokens, and, if the text can be read further, what is
expected behind them and the rest. A bracket that closes nothing is a token, but the last one. -/
def step (m : Mode) (c : Char) (rest : List Char) : List Token × Option (Mode × List Char) :=
  let one : Option (Token × List Char) → List Token × Option (Mode × List Char)
    | some (t, after) => ([t], some (m, after))
    | none => ([], none)
  if isBlank c then ([], some (m, rest))
  else if c = '#' then ([], some (m, rest.dropWhile (· != '\n')))
  else if c = '\n' ∨ c = '\r' then ([], some (m.nextLine, rest))
  else if c = '=' then ([.equals], some (m.forValue, rest))
  else if c = '}' then
    ([.rightBrace], if m.inside .curly then some (m.close.forValue, rest) else none)
  else if !m.wantsValue then
    if c = '[' then
      let (ts, after) := header rest
      (ts, after.map fun cs => (m, cs))
    else one ((keyChars (rest.length + 2) (c :: rest)).map fun (s, after) => (.key (String.ofList s), after))
  else if c = '[' then ([.leftBracket], some (m.open_ .square, rest))
  else if c = ']' then ([.rightBracket], if m.inside .square then some (m.close, rest) else none)
  else if c = '{' then ([.leftBrace], some ((m.open_ .curly).forKey, rest))
  else if c = ',' then ([.comma], some (m.nextItem, rest))
  else if c = '"' ∨ c = '\'' then
    one ((stringBehind? c rest).map fun (s, after) => (.string (String.ofList s), after))
  else match word? (c :: rest) with
    | some (t, after) => ([t], some (m, after))
    | none => one (if c = '+' ∨ c = '-' ∨ c.isDigit then number? (c :: rest) else none)

/-- The tokens of a text, read with the given number of steps, and what cannot be read. -/
def tokensFrom : Nat → Mode → List Char → List Token × List Char
  | _, _, [] => ([], [])
  | 0, _, cs => ([], cs)
  | n + 1, m, c :: rest => match step m c rest with
    | (ts, some (m', after)) =>
      let (more, unread) := tokensFrom n m' after
      (ts ++ more, unread)
    | (ts, none) => (ts, c :: rest)

/-- The tokens of a text and what cannot be read behind them. -/
def tokens (s : List Char) : List Token × List Char := tokensFrom s.length {} s

end Shading.Toml
