import Shading.Text.Printable

/-!
# Quoted texts

A text between double quotes, as it stands in messages. Printable characters stand for themselves;
a quote and a backslash get a backslash in front; the usual control characters have a letter each;
every other character is written by its code in hexadecimal digits.
-/

namespace Shading.Text

/-- The lower-case hexadecimal digit of a number below sixteen. -/
def hexDigit (n : Nat) : Char :=
  if n < 10 then Char.ofNat (48 + n) else Char.ofNat (87 + n)

/-- The last `width` hexadecimal digits of a number. -/
def hexDigits : (width : Nat) → Nat → List Char
  | 0, _ => []
  | w + 1, n => hexDigits w (n / 16) ++ [hexDigit (n % 16)]

/-- The escape of a character that has a letter of its own. -/
def escapeLetter? (c : Char) : Option Char :=
  match c.toNat with
  | 7 => some 'a'
  | 8 => some 'b'
  | 12 => some 'f'
  | 10 => some 'n'
  | 13 => some 'r'
  | 9 => some 't'
  | 11 => some 'v'
  | _ => none

/-- One character inside the quotes. -/
def quoteChar (c : Char) : List Char :=
  if c = '"' ∨ c = '\\' then ['\\', c]
  else if isPrintable c then [c]
  else match escapeLetter? c with
    | some l => ['\\', l]
    | none =>
      if c.toNat < 32 ∨ c.toNat = 127 then ['\\', 'x'] ++ hexDigits 2 c.toNat
      else if c.toNat < 0x10000 then ['\\', 'u'] ++ hexDigits 4 c.toNat
      else ['\\', 'U'] ++ hexDigits 8 c.toNat

/-- The text between double quotes, with what is not printable escaped. -/
def quoted (s : String) : String :=
  String.ofList ('"' :: s.toList.flatMap quoteChar ++ ['"'])

end Shading.Text
