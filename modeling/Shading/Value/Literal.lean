import Shading.Value
import Shading.Text.Quoted

/-!
# Literals

How the text of a literal denotes a constant. `true` and `false` are truth values. A text with a
point or an exponent mark that is not hexadecimal is a double, rounded to nearest; any other text is an
integer in base ten, or in the base its first two characters name, or octal after a plain zero. Single
underscores may stand between digits. Integers up to `2 ^ 32 - 1` are taken modulo `2 ^ 32` as signed
numbers.
-/

namespace Shading.Value

/-- Why the digits of a literal denote no number. -/
inductive NumeralFault where
  | malformed
  | outOfRange
deriving DecidableEq, Inhabited

def NumeralFault.message : NumeralFault → String
  | malformed => "invalid syntax"
  | outOfRange => "value out of range"

inductive LiteralError where
  | badFloat (lexeme : String) (why : NumeralFault)
  | badInt (lexeme : String) (why : NumeralFault)
  | intTooLarge (lexeme : String)
deriving DecidableEq, Inhabited

def LiteralError.message : LiteralError → String
  | badFloat s why =>
    "invalid float literal " ++ Text.quoted s ++ ": strconv.ParseFloat: parsing " ++ Text.quoted s
      ++ ": " ++ why.message
  | badInt s why =>
    "invalid int literal " ++ Text.quoted s ++ ": strconv.ParseInt: parsing " ++ Text.quoted s
      ++ ": " ++ why.message
  | intTooLarge s => "int literal " ++ Text.quoted s ++ " out of range"

/-- The value of a digit in bases up to thirty-six. -/
def digit? (c : Char) : Option Nat :=
  if c.isDigit then some (c.toNat - 48)
  else if 'a' ≤ c ∧ c ≤ 'z' then some (c.toNat - 87)
  else if 'A' ≤ c ∧ c ≤ 'Z' then some (c.toNat - 55)
  else none

def digitIn? (base : Nat) (c : Char) : Option Nat :=
  (digit? c).filter (· < base)

/-- What stood before a character of a numeral, as far as underscores care. -/
inductive Before where
  | digit | underscore | other
deriving DecidableEq

/-- Every underscore stands between two digits. -/
def underscoresSeparate (base : Nat) : Before → List Char → Bool
  | before, [] => before != .underscore
  | before, c :: cs =>
    if c = '_' then before == .digit && underscoresSeparate base .underscore cs
    else if (digitIn? base c).isSome then underscoresSeparate base .digit cs
    else before != .underscore && underscoresSeparate base .other cs

/-- Splits a sign off: whether it is a minus, and what follows. -/
def splitSign : List Char → Bool × List Char
  | '-' :: cs => (true, cs)
  | '+' :: cs => (false, cs)
  | cs => (false, cs)

/-- The base that the first two characters of an unsigned numeral name, and the characters after them. -/
def basePrefix? : List Char → Option (Nat × List Char)
  | '0' :: c :: cs =>
    if c = 'b' ∨ c = 'B' then some (2, cs)
    else if c = 'o' ∨ c = 'O' then some (8, cs)
    else if c = 'x' ∨ c = 'X' then some (16, cs)
    else none
  | _ => none

/-- The underscores of an unsigned numeral are well placed; the base mark counts as a digit. -/
def underscoresOk (cs : List Char) : Bool :=
  match basePrefix? cs with
  | some (base, rest) => underscoresSeparate (max base 10) .digit rest
  | none => underscoresSeparate 10 .other cs

/-- The base of an unsigned integer numeral and its digits: a mark needs digits behind it, and a zero
in front of anything else means octal. -/
def integerBase (cs : List Char) : Nat × List Char :=
  match basePrefix? cs with
  | some (base, d :: ds) => (base, d :: ds)
  | _ => match cs with
    | '0' :: ds => (8, ds)
    | _ => (10, cs)

/-- The value of the digits, read from the left; it is out of range as soon as it exceeds 64 bits. -/
def readDigits (base : Nat) : Nat → List Char → Except NumeralFault Nat
  | n, [] => .ok n
  | n, c :: cs =>
    if c = '_' then readDigits base n cs
    else match digitIn? base c with
      | none => .error .malformed
      | some d =>
        if Number.power 2 64 ≤ n * base + d then .error .outOfRange else readDigits base (n * base + d) cs

/-- The value of an integer numeral that fits 64 bits with its sign. -/
def readInteger (cs : List Char) : Except NumeralFault Int := do
  let (negative, body) := splitSign cs
  if body.isEmpty then throw .malformed
  let (base, digits) := integerBase body
  let n ← readDigits base 0 digits
  if body.contains '_' && !underscoresOk body then throw .malformed
  if negative then
    if Number.power 2 63 < n then throw .outOfRange else return -(n : Int)
  else
    if Number.power 2 63 ≤ n then throw .outOfRange else return (n : Int)

/-- The digits in front of the exponent: their value, how many of them stand behind the point, whether
there is any, and the characters left. The second point ends them. -/
structure Mantissa where
  value : Nat := 0
  fraction : Nat := 0
  anyDigit : Bool := false
  rest : List Char := []

def readMantissa (base : Nat) : (point : Bool) → Mantissa → List Char → Mantissa
  | _, m, [] => { m with rest := [] }
  | point, m, c :: cs =>
    if c = '_' then readMantissa base point m cs
    else if c = '.' then
      if point then { m with rest := c :: cs } else readMantissa base true m cs
    else match digitIn? base c with
      | none => { m with rest := c :: cs }
      | some d =>
        readMantissa base point
          { m with
            value := m.value * base + d
            fraction := if point then m.fraction + 1 else m.fraction
            anyDigit := true } cs

/-- The value of an exponent's digits. It stops growing beyond ten thousand, where every numeral is
long since zero or infinite. -/
def readExponentDigits : Nat → List Char → Nat × List Char
  | e, [] => (e, [])
  | e, c :: cs =>
    if c = '_' then readExponentDigits e cs
    else match digitIn? 10 c with
      | none => (e, c :: cs)
      | some d => readExponentDigits (if e < 10000 then e * 10 + d else e) cs

/-- A numeral of a double, in parts: `mantissa * base ^ exponent` with base two or ten. -/
structure FloatNumeral where
  negative : Bool
  mantissa : Nat
  base : Nat
  exponent : Int

/-- The exponent behind its mark: an optional sign and at least one digit. -/
def readExponent? (cs : List Char) : Option (Int × List Char) :=
  let (negative, digits) := splitSign cs
  match digits with
  | [] => none
  | c :: _ =>
    if c.isDigit then
      let (e, rest) := readExponentDigits 0 digits
      some (if negative then -(e : Int) else e, rest)
    else none

/-- Splits off the mark of a hexadecimal numeral that goes on behind it: whether it is there, and the digits. -/
def splitHex : List Char → Bool × List Char
  | '0' :: x :: d :: ds => if x = 'x' ∨ x = 'X' then (true, d :: ds) else (false, '0' :: x :: d :: ds)
  | cs => (false, cs)

/-- The characters start with the mark of an exponent. -/
def startsExponent (hex : Bool) : List Char → Bool
  | c :: _ => if hex then c == 'p' || c == 'P' else c == 'e' || c == 'E'
  | [] => false

/-- The parts of a double's numeral. A hexadecimal one needs a binary exponent. -/
def readFloatNumeral? (cs : List Char) : Option FloatNumeral := do
  let (negative, body) := splitSign cs
  let (hex, digits) := splitHex body
  let m := readMantissa (if hex then 16 else 10) false {} digits
  guard m.anyDigit
  let (e, rest) ← if startsExponent hex m.rest then readExponent? (m.rest.drop 1)
    else if hex then none else some (0, m.rest)
  guard rest.isEmpty
  guard (!body.contains '_' || underscoresOk body)
  return {
    negative
    mantissa := m.value
    base := if hex then 2 else 10
    exponent := e - (if hex then 4 * m.fraction else m.fraction : Nat) }

/-- The magnitude of a numeral, rounded to the nearest double. -/
def FloatNumeral.magnitude (n : FloatNumeral) : Nat :=
  Number.roundQuotient (n.mantissa * Number.power n.base n.exponent.toNat)
    (Number.power n.base (-n.exponent).toNat)

def readFloat (cs : List Char) : Except NumeralFault Float :=
  match readFloatNumeral? cs with
  | none => .error .malformed
  | some n =>
    let bits := n.magnitude
    if bits < Number.infinityBits then .ok (Number.floatOfMagnitude n.negative bits)
    else .error .outOfRange

/-- The text is written like a double: it has a point or an exponent mark and is not hexadecimal. -/
def looksLikeFloat (cs : List Char) : Bool :=
  cs.any (fun c => c == '.' || c == 'e' || c == 'E') &&
    !(match cs with
      | '0' :: c :: _ => c == 'x' || c == 'X'
      | _ => false)

def parse (s : String) : Except LiteralError Value :=
  if s = "true" then .ok (bool true)
  else if s = "false" then .ok (bool false)
  else if looksLikeFloat s.toList then
    match readFloat s.toList with
    | .ok f => .ok (float f)
    | .error why => .error (.badFloat s why)
  else
    match readInteger s.toList with
    | .ok i => if (Number.power 2 32 : Int) ≤ i then .error (.intTooLarge s) else .ok (int (Int32.ofInt i))
    | .error why => .error (.badInt s why)

end Shading.Value
