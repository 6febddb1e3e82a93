/-!
# TOML keys

A key is one name, or several with dots between them. A name is bare, made of letters, digits, dashes and
underscores, or stands in quotes of either kind.
-/

namespace Shading.Toml

/-- A blank between the parts of a line. -/
def isBlank (c : Char) : Bool := c == ' ' || c == '\t'

/-- A character that may stand in a name without quotes. -/
def isBare (c : Char) : Bool := c.isAlphanum || c == '_' || c == '-'

/-- What may follow a bare name: nothing, or blanks and then nothing or a dot. -/
def bareEnds (rest : List Char) : Bool :=
  match rest with
  | [] => true
  | '.' :: _ => true
  | c :: _ => isBlank c && match rest.dropWhile isBlank with
    | [] => true
    | d :: _ => d == '.'

/-- What may follow a dot. -/
def dotEnds : List Char → Bool
  | [] => false
  | c :: _ => isBare c || c == '\'' || c == '"' || c == ' '

/-- The names of a key, read with the given number of steps. -/
def keyNames : Nat → List Char → Option (List String)
  | 0, _ => none
  | n + 1, cs => match cs.dropWhile isBlank with
    | [] => some []
    | c :: rest =>
      if isBare c then
        let name := c :: rest.takeWhile isBare
        let after := rest.dropWhile isBare
        if bareEnds after then (keyNames n after).map (String.ofList name :: ·) else none
      else if c = '\'' ∨ c = '"' then
        match rest.dropWhile (· != c) with
        | [] => none
        | _ :: after => (keyNames n after).map (String.ofList (rest.takeWhile (· != c)) :: ·)
      else if c = '.' then if dotEnds rest then keyNames n rest else none
      else none

/-- The names of a key; there is at least one. -/
def splitKey (key : String) : Option (List String) :=
  match keyNames (key.length + 1) key.toList with
  | some (name :: names) => some (name :: names)
  | _ => none

end Shading.Toml
