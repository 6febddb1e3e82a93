import Shading.Token
import Shading.Text.Letter

/-!
# Reading tokens

A text is cut into pieces from the left. A piece is a token, or a gap: blanks, a newline, a comment to
the end of the line, or a comment between `/*` and `*/`, which may also be left open at the end of the
text. The longest piece that can stand at the front is taken. Pieces together are the text
(`Piece.next_parts`), so each token's position is the position behind everything read before it.
-/

namespace Shading
open Text

namespace Token

/-- A first part of a text with its kind, and the rest. A piece without a kind is a gap. -/
structure Piece where
  kind : Option Kind
  taken : List Glyph
  rest : List Glyph

/-- A character that may go on in a word. -/
def isWordGlyph (g : Glyph) : Bool :=
  g.satisfies fun c => isLetter c || c.isDigit || c == '_'

/-- A character that may start a word. -/
def isWordStart (g : Glyph) : Bool :=
  g.satisfies fun c => isLetter c || c == '_'

def isDigitGlyph (g : Glyph) : Bool := g.satisfies Char.isDigit

def isHexGlyph (g : Glyph) : Bool :=
  g.satisfies fun c =>
    c.isDigit || (decide ('a' ≤ c) && decide (c ≤ 'f')) || (decide ('A' ≤ c) && decide (c ≤ 'F'))

/-- The front of a text up to the `*/` that closes a comment, or all of it, and what follows. -/
def blockComment : List Glyph → List Glyph × List Glyph
  | g :: h :: rest =>
    if g.is '*' && h.is '/' then ([g, h], rest)
    else (g :: (blockComment (h :: rest)).1, (blockComment (h :: rest)).2)
  | gs => (gs, [])

/-- The exponent of a number at the front of a text: its mark, a sign if there is one, and the digits
behind it, of which there may be none. -/
def exponentPart : List Glyph → List Glyph × List Glyph
  | [] => ([], [])
  | g :: rest =>
    if g.is 'e' || g.is 'E' then
      match rest with
      | s :: rest' =>
        if s.is '+' || s.is '-' then (g :: s :: rest'.takeWhile isDigitGlyph, rest'.dropWhile isDigitGlyph)
        else (g :: rest.takeWhile isDigitGlyph, rest.dropWhile isDigitGlyph)
      | [] => ([g], [])
    else ([], g :: rest)

/-- The point of a number and the digits behind it. A point before a word selects a component of
an integer and is left alone. -/
def fractionPart : List Glyph → List Glyph × List Glyph
  | [] => ([], [])
  | g :: rest =>
    if g.is '.' && !(rest.head?.any isWordStart) then
      (g :: rest.takeWhile isDigitGlyph, rest.dropWhile isDigitGlyph)
    else ([], g :: rest)

/-- A number whose digits in front of the point are `whole`. -/
def numberPiece (whole rest : List Glyph) : Piece :=
  let (fraction, rest) := fractionPart rest
  let (exponent, rest) := exponentPart rest
  { kind := some (if fraction.isEmpty && exponent.isEmpty then .intLiteral else .floatLiteral)
    taken := whole ++ fraction ++ exponent
    rest }

/-- A number that starts with a digit. After `0x` all hexadecimal digits belong to it. -/
def digitPiece (g : Glyph) (rest : List Glyph) : Piece :=
  let decimal := numberPiece (g :: rest.takeWhile isDigitGlyph) (rest.dropWhile isDigitGlyph)
  match rest with
  | x :: rest' =>
    if g.is '0' && (x.is 'x' || x.is 'X') then
      { kind := some .intLiteral
        taken := g :: x :: rest'.takeWhile isHexGlyph
        rest := rest'.dropWhile isHexGlyph }
    else decimal
  | [] => decimal

/-- A number that starts with a point. -/
def pointPiece (g : Glyph) (rest : List Glyph) : Piece :=
  let digits := rest.takeWhile isDigitGlyph
  let (exponent, rest) := exponentPart (rest.dropWhile isDigitGlyph)
  { kind := some .floatLiteral, taken := g :: digits ++ exponent, rest }

/-- A word: a keyword, a type keyword or an identifier. -/
def wordPiece (g : Glyph) (rest : List Glyph) : Piece :=
  let word := g :: rest.takeWhile isWordGlyph
  { kind := some (.ofWord (Glyph.text word)), taken := word, rest := rest.dropWhile isWordGlyph }

def one (kind : Kind) (g : Glyph) (rest : List Glyph) : Piece := ⟨some kind, [g], rest⟩

/-- A symbol of two characters if the second follows, and otherwise one of the first alone. -/
def either (second : Char) (long short : Kind) (g : Glyph) (rest : List Glyph) : Piece :=
  match rest with
  | h :: rest' => if h.is second then ⟨some long, [g, h], rest'⟩ else ⟨some short, [g], rest⟩
  | [] => ⟨some short, [g], []⟩

/-- A piece that starts with a slash: a comment, `/=` or the slash itself. -/
def slashPiece (g : Glyph) (rest : List Glyph) : Piece :=
  match rest with
  | h :: rest' =>
    if h.is '/' then
      ⟨none, g :: h :: rest'.takeWhile (fun x => !x.is '\n'), rest'.dropWhile (fun x => !x.is '\n')⟩
    else if h.is '*' then
      let (body, after) := blockComment rest'
      ⟨none, g :: h :: body, after⟩
    else if h.is '=' then ⟨some .slashEqual, [g, h], rest'⟩
    else ⟨some .slash, [g], rest⟩
  | [] => ⟨some .slash, [g], []⟩

/-- A piece that starts with a minus sign: `-=`, `->` or the sign itself. -/
def minusPiece (g : Glyph) (rest : List Glyph) : Piece :=
  match rest with
  | h :: rest' =>
    if h.is '=' then ⟨some .minusEqual, [g, h], rest'⟩
    else if h.is '>' then ⟨some .arrow, [g, h], rest'⟩
    else ⟨some .minus, [g], rest⟩
  | [] => ⟨some .minus, [g], []⟩

/-- The piece that starts with a character. -/
def charPiece (c : Char) (g : Glyph) (rest : List Glyph) : Piece :=
  match c with
  | '(' => one .leftParen g rest
  | ')' => one .rightParen g rest
  | '\x7b' => one .leftBrace g rest
  | '\x7d' => one .rightBrace g rest
  | '[' => one .leftBracket g rest
  | ']' => one .rightBracket g rest
  | ',' => one .comma g rest
  | '.' => if rest.head?.any isDigitGlyph then pointPiece g rest else one .dot g rest
  | ':' => one .colon g rest
  | ';' => one .semicolon g rest
  | '?' => one .question g rest
  | '+' => either '=' .plusEqual .plus g rest
  | '-' => minusPiece g rest
  | '*' => either '=' .starEqual .star g rest
  | '/' => slashPiece g rest
  | '=' => either '=' .equalEqual .equal g rest
  | '!' => either '=' .bangEqual .bang g rest
  | '<' => either '=' .lessEqual .less g rest
  | '>' => either '=' .greaterEqual .greater g rest
  | '&' => either '&' .ampAmp .bad g rest
  | '|' => either '|' .pipePipe .bad g rest
  | ' ' | '\r' | '\t' | '\n' => ⟨none, [g], rest⟩
  | _ =>
    if c.isDigit then digitPiece g rest
    else if isWordStart g then wordPiece g rest
    else one .bad g rest

/-- The piece at the front of a text. -/
def Piece.next (g : Glyph) (rest : List Glyph) : Piece :=
  match g with
  | .char c => charPiece c g rest
  | .stray _ => one .bad g rest

theorem blockComment_parts (gs : List Glyph) :
    (blockComment gs).1 ++ (blockComment gs).2 = gs := by
  fun_induction blockComment gs with
  | case1 g h rest _ => rfl
  | case2 g h rest _ ih => exact congrArg (g :: ·) ih
  | case3 gs _ => simp

theorem exponentPart_parts (gs : List Glyph) :
    (exponentPart gs).1 ++ (exponentPart gs).2 = gs := by
  fun_cases exponentPart gs <;> simp

theorem fractionPart_parts (gs : List Glyph) :
    (fractionPart gs).1 ++ (fractionPart gs).2 = gs := by
  fun_cases fractionPart gs <;> simp

theorem numberPiece_parts (whole rest : List Glyph) :
    (numberPiece whole rest).taken ++ (numberPiece whole rest).rest = whole ++ rest := by
  have hf := fractionPart_parts rest
  have he := exponentPart_parts (fractionPart rest).2
  simp only [numberPiece, List.append_assoc]
  rw [he, hf]

theorem digitPiece_parts (g : Glyph) (rest : List Glyph) :
    (digitPiece g rest).taken ++ (digitPiece g rest).rest = g :: rest := by
  unfold digitPiece
  split
  · split
    · simp
    · simp [numberPiece_parts]
  · simp [numberPiece_parts]

theorem pointPiece_parts (g : Glyph) (rest : List Glyph) :
    (pointPiece g rest).taken ++ (pointPiece g rest).rest = g :: rest := by
  have he := exponentPart_parts (rest.dropWhile isDigitGlyph)
  simp only [pointPiece, List.cons_append, List.append_assoc]
  rw [he, List.takeWhile_append_dropWhile]

theorem either_parts (c : Char) (long short : Kind) (g : Glyph) (rest : List Glyph) :
    (either c long short g rest).taken ++ (either c long short g rest).rest = g :: rest := by
  fun_cases either c long short g rest <;> simp

theorem slashPiece_parts (g : Glyph) (rest : List Glyph) :
    (slashPiece g rest).taken ++ (slashPiece g rest).rest = g :: rest := by
  fun_cases slashPiece g rest
  case case2 h rest' _ _ body after hb =>
    have := blockComment_parts rest'
    simp_all
  all_goals simp

theorem minusPiece_parts (g : Glyph) (rest : List Glyph) :
    (minusPiece g rest).taken ++ (minusPiece g rest).rest = g :: rest := by
  fun_cases minusPiece g rest <;> simp

theorem charPiece_parts (c : Char) (g : Glyph) (rest : List Glyph) :
    (charPiece c g rest).taken ++ (charPiece c g rest).rest = g :: rest := by
  unfold charPiece
  split <;>
    simp only [one, either_parts, slashPiece_parts, minusPiece_parts, List.cons_append,
      List.nil_append]
  · split
    · exact pointPiece_parts g rest
    · rfl
  · split
    · exact digitPiece_parts g rest
    · split
      · simp [wordPiece]
      · rfl

theorem Piece.next_parts (g : Glyph) (rest : List Glyph) :
    (Piece.next g rest).taken ++ (Piece.next g rest).rest = g :: rest := by
  unfold Piece.next
  split
  · exact charPiece_parts _ _ _
  · rfl

theorem Piece.next_takes (g : Glyph) (rest : List Glyph) :
    ∃ more, (Piece.next g rest).taken = g :: more := by
  have number : ∀ ds r, ∃ more, (numberPiece (g :: ds) r).taken = g :: more := by
    intro ds r
    exact ⟨_, by simp only [numberPiece, List.cons_append]; rfl⟩
  unfold Piece.next
  split
  · unfold charPiece
    split <;> try exact ⟨[], rfl⟩
    all_goals first
      | (unfold either; split <;> (try split) <;> exact ⟨_, rfl⟩)
      | (unfold minusPiece; split <;> (try split) <;> (try split) <;> exact ⟨_, rfl⟩)
      | (unfold slashPiece; split <;> (try split) <;> (try split) <;> (try split) <;> exact ⟨_, rfl⟩)
      | skip
    · split
      · exact ⟨_, by simp only [pointPiece, List.cons_append]; rfl⟩
      · exact ⟨[], rfl⟩
    · split
      · unfold digitPiece
        split
        · split
          · exact ⟨_, rfl⟩
          · exact number _ _
        · exact number _ _
      · split
        · exact ⟨_, rfl⟩
        · exact ⟨[], rfl⟩
  · exact ⟨[], rfl⟩

theorem Piece.next_shorter (g : Glyph) (rest : List Glyph) :
    (Piece.next g rest).rest.length < (g :: rest).length := by
  obtain ⟨more, h⟩ := Piece.next_takes g rest
  have hp := congrArg List.length (Piece.next_parts g rest)
  rw [h] at hp
  simp only [List.length_append, List.length_cons] at hp
  simp only [List.length_cons]
  omega

/-- Characters that start no token, and where they stand. -/
structure Unexpected where
  glyphs : List Glyph
  start : Position
deriving DecidableEq

/-- The stretch the characters cover, counted in bytes like that of a token. -/
def Unexpected.span (u : Unexpected) : Span :=
  let n : Int := Glyph.size u.glyphs
  ⟨u.start, { u.start with column := u.start.column + n, offset := u.start.offset + n }⟩

/-- The tokens of a text that starts at `p`, or the first piece that starts no token. The last token
marks the end. -/
def readFrom (p : Position) : List Glyph → Except Unexpected (List Token)
  | [] => .ok [⟨.eof, "", p⟩]
  | g :: rest =>
    let piece := Piece.next g rest
    let behind := p.after piece.taken
    match piece.kind with
    | none => readFrom behind piece.rest
    | some .bad => .error ⟨piece.taken, p⟩
    | some k => do
      let tokens ← readFrom behind piece.rest
      return ⟨k, Glyph.text piece.taken, p⟩ :: tokens
termination_by gs => gs.length
decreasing_by all_goals exact Piece.next_shorter g rest

/-- The tokens of a source text, or the characters that start no token. -/
def read (src : Source) : Except Unexpected (List Token) := readFrom .first src.glyphs

end Token

end Shading
