import Shading.Text.Glyph

/-!
# Source texts, positions and spans

A position counts lines and characters from one and bytes from zero. Reading a glyph moves it:
a newline starts the next line, any other glyph moves one column on, and the offset grows by the
bytes read (`Position.advance`). A span reaches from one position to another; it is *unset* when its
first line is zero, the mark of a diagnostic that belongs to no place. The excerpt of a span is the
source line it starts on with a caret under its first column.
-/

namespace Shading
open Text

/-- A place in a source text: line and column count from one, the offset counts bytes from zero. -/
structure Position where
  line : Int
  column : Int
  offset : Int
deriving DecidableEq, Inhabited

namespace Position

/-- The beginning of every source text. -/
def first : Position := ⟨1, 1, 0⟩

/-- The position behind a glyph that is read at `p`. -/
def advance (p : Position) (g : Glyph) : Position :=
  if g.is '\n' then ⟨p.line + 1, 1, p.offset + g.width⟩
  else ⟨p.line, p.column + 1, p.offset + g.width⟩

def after (p : Position) (gs : List Glyph) : Position := gs.foldl advance p

@[simp] theorem after_nil (p : Position) : p.after [] = p := rfl

@[simp] theorem after_cons (p : Position) (g : Glyph) (gs : List Glyph) :
    p.after (g :: gs) = (p.advance g).after gs := rfl

@[simp] theorem after_append (p : Position) (gs hs : List Glyph) :
    p.after (gs ++ hs) = (p.after gs).after hs := by
  simp [after, List.foldl_append]

@[simp] theorem advance_offset (p : Position) (g : Glyph) :
    (p.advance g).offset = p.offset + g.width := by
  unfold advance; split <;> rfl

theorem after_offset (p : Position) (gs : List Glyph) :
    (p.after gs).offset = p.offset + Glyph.size gs := by
  induction gs generalizing p with
  | nil => simp
  | cons g gs ih => simp [ih]; omega

end Position

/-- A stretch of source text. -/
structure Span where
  start : Position
  stop : Position
deriving DecidableEq, Inhabited

namespace Span

/-- The span of what stands nowhere in a source. -/
def unset : Span := ⟨⟨0, 0, 0⟩, ⟨0, 0, 0⟩⟩

/-- The span belongs to no place of a source. -/
def isUnset (s : Span) : Bool := s.start.line == 0

/-- The place a span starts at, as messages name it. -/
def place (s : Span) : String :=
  toString s.start.line ++ ":" ++ toString s.start.column

/-- The span from the start of one span to the end of another. -/
def through (first last : Span) : Span := ⟨first.start, last.stop⟩

end Span

/-- A source text, as the glyphs read from its bytes. -/
structure Source where
  glyphs : List Glyph
deriving Inhabited

namespace Source

def ofBytes (input : ByteArray) : Source := ⟨Glyph.decode input⟩

def ofString (s : String) : Source := ⟨s.toList.map .char⟩

def isEmpty (src : Source) : Bool := src.glyphs.isEmpty

/-- The glyphs up to the first newline, and the lines behind it. -/
def splitLines : List Glyph → List Glyph × List (List Glyph)
  | [] => ([], [])
  | g :: gs =>
    let (line, lines) := splitLines gs
    if g.is '\n' then ([], line :: lines) else (g :: line, lines)

/-- The lines of a source text, without their newlines; there is always at least one. -/
def lines (src : Source) : List (List Glyph) :=
  let (line, rest) := splitLines src.glyphs
  line :: rest

end Source

/-- A number in decimal digits, with blanks in front up to the given width. -/
def paddedNumber (width : Nat) (n : Int) : String :=
  let digits := toString n
  String.ofList (List.replicate (width - digits.length) ' ') ++ digits

/-- The source line a span starts on and a caret under its column. The column is kept between the
first one and the one behind the last byte of the line. A span without a place, or beyond the last
line, has no excerpt, and neither has an empty source. -/
def Span.excerpt? (s : Span) (src : Source) : Option String :=
  if src.isEmpty || s.isUnset then none
  else if s.start.line < 1 then none
  else do
    let line ← src.lines[(s.start.line - 1).toNat]?
    let column := min (max s.start.column 1) (Glyph.size line + 1)
    return "  --> line " ++ toString s.start.line ++ ":" ++ toString column ++ "\n"
      ++ "   |\n"
      ++ paddedNumber 3 s.start.line ++ "| " ++ Glyph.text line ++ "\n"
      ++ "   | " ++ String.ofList (List.replicate (column - 1).toNat ' ') ++ "^\n"

end Shading
