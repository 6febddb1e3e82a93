/-!
# TOML strings

A basic string stands between double quotes and has escapes; a literal string stands between single
quotes and has none. Both can be written with three quotes at each end and then go over several lines.
A backslash before white space leaves out all white space that follows.
-/

namespace Shading.Toml

/-- What the characters before may still ask for. -/
inductive Pending where
  /-- Nothing. -/
  | none
  /-- A backslash, so an escape. -/
  | escape
  /-- Blanks and newlines are left out. -/
  | blanks
  /-- So many more digits of a code, the value of those before them being given. -/
  | code (left value : Nat)

/-- The white space that an escape leaves out. -/
def isSkipped (c : Char) : Bool := c == ' ' || c == '\t' || c == '\r' || c == '\n'

def hexValue? (c : Char) : Option Nat :=
  if c.isDigit then some (c.toNat - 48)
  else if 'a' ≤ c ∧ c ≤ 'f' then some (c.toNat - 87)
  else if 'A' ≤ c ∧ c ≤ 'F' then some (c.toNat - 55)
  else Option.none

/-- The character that an escape letter stands for. -/
def escaped? (c : Char) : Option Char :=
  [('"', '"'), ('\\', '\\'), ('/', '/'), ('n', '\n'), ('t', '\t'), ('r', '\r'),
   ('b', Char.ofNat 8), ('f', Char.ofNat 12)].lookup c

/-- The character of a code; a code of no character gives the replacement character. -/
def charOfCode (n : Nat) : Char := if n.isValidChar then Char.ofNat n else Char.ofNat 0xfffd

/-- What follows the closing quotes, if the text begins with them. -/
def closed? (quote : Char) (triple : Bool) (cs : List Char) : Option (List Char) :=
  match triple, cs with
  | false, a :: rest => if a = quote then some rest else Option.none
  | true, a :: b :: c :: rest =>
    if a = quote ∧ b = quote ∧ c = quote then some rest else Option.none
  | _, _ => Option.none

/-- A character that must be escaped in a basic string. -/
def isControl (newlines : Bool) (c : Char) : Bool :=
  decide (c.toNat < 32) && c != '\t' && !(newlines && (c == '\n' || c == '\r'))

/-- The character is left out. -/
def Pending.skips : Pending → Char → Bool
  | escape, c | blanks, c => isSkipped c
  | none, _ | code _ _, _ => false

/-- The characters of a basic string up to its closing quotes, and what follows them. -/
def basicChars (triple newlines : Bool) : Pending → List Char → Option (List Char × List Char)
  | _, [] => Option.none
  | p, c :: rest =>
    let andThen (d : Char) : Option (List Char × List Char) :=
      (basicChars triple newlines .none rest).map fun (s, r) => (d :: s, r)
    if p.skips c then basicChars triple newlines .blanks rest
    else match p with
      | .escape =>
        if c = 'u' then basicChars triple newlines (.code 4 0) rest
        else if c = 'U' then basicChars triple newlines (.code 8 0) rest
        else (escaped? c).bind andThen
      | .code left value => (hexValue? c).bind fun d =>
        let v := 16 * value + d
        if left ≤ 1 then andThen (charOfCode v) else basicChars triple newlines (.code (left - 1) v) rest
      | .none | .blanks => match closed? '"' triple (c :: rest) with
        | some after => some ([], after)
        | Option.none =>
          if c = '\\' then basicChars triple newlines .escape rest
          else if isControl newlines c then Option.none
          else andThen c

/-- The characters of a literal string up to its closing quotes, and what follows them. -/
def literalChars (triple : Bool) : List Char → Option (List Char × List Char)
  | [] => none
  | c :: rest => match closed? '\'' triple (c :: rest) with
    | some after => some ([], after)
    | none => (literalChars triple rest).map fun (s, r) => (c :: s, r)

/-- The text without a newline at its beginning. -/
def dropNewline : List Char → List Char
  | '\r' :: '\n' :: rest => rest
  | '\n' :: rest => rest
  | cs => cs

/-- The string whose opening quote has been read, and what follows it. -/
def stringBehind? (quote : Char) (cs : List Char) : Option (List Char × List Char) :=
  let read (triple : Bool) (cs : List Char) : Option (List Char × List Char) :=
    if quote = '"' then basicChars triple triple .none cs else literalChars triple cs
  match cs with
  | a :: b :: rest =>
    if a = quote ∧ b = quote then read true (dropNewline rest) else read false cs
  | _ => read false cs

end Shading.Toml
