/-!
# Glyphs

A source text is a sequence of bytes that is meant to be UTF-8 but need not be. Reading it gives a
sequence of glyphs: each is a decoded character, or one byte that belongs to no character. Nothing is
lost on the way, since the bytes of the glyphs put together are the bytes read
(`bytes_decode`).
-/

namespace Shading.Text

/-- One unit of a source text: a character, or a byte that is part of none. -/
inductive Glyph where
  | char (c : Char)
  | stray (b : UInt8)
deriving DecidableEq, Inhabited

namespace Glyph

/-- The bytes the glyph was read from. -/
def bytes : Glyph → List UInt8
  | char c => String.utf8EncodeChar c
  | stray b => [b]

/-- The number of bytes the glyph was read from. -/
def width : Glyph → Nat
  | char c => c.utf8Size
  | stray _ => 1

/-- The character shown for the glyph: a stray byte is shown as the replacement character. -/
def shown : Glyph → Char
  | char c => c
  | stray _ => Char.ofNat 0xFFFD

def is (g : Glyph) (c : Char) : Bool := g == char c

/-- A test on characters, which no stray byte passes. -/
def satisfies (p : Char → Bool) : Glyph → Bool
  | char c => p c
  | stray _ => false

theorem width_pos (g : Glyph) : 0 < g.width := by
  cases g with
  | char c => exact c.utf8Size_pos
  | stray b => exact Nat.one_pos

theorem length_bytes (g : Glyph) : g.bytes.length = g.width := by
  cases g with
  | char c => simp [bytes, width]
  | stray b => rfl

/-- The glyphs of the bytes from position `i` on. -/
def decodeFrom (input : ByteArray) (i : Nat) : List Glyph :=
  if h : i < input.size then
    match input.utf8DecodeChar? i with
    | some c => char c :: decodeFrom input (i + c.utf8Size)
    | none => stray input[i] :: decodeFrom input (i + 1)
  else []
termination_by input.size - i
decreasing_by
  · have := c.utf8Size_pos; omega
  · omega

def decode (input : ByteArray) : List Glyph := decodeFrom input 0

/-- A decoded character stands at the front of the bytes left, which go on behind it. -/
theorem drop_of_decode {input : ByteArray} {i : Nat} {c : Char}
    (h : input.utf8DecodeChar? i = some c) :
    input.data.toList.drop i =
      String.utf8EncodeChar c ++ input.data.toList.drop (i + c.utf8Size) := by
  rw [ByteArray.utf8DecodeChar?_eq_utf8DecodeChar?_extract] at h
  obtain ⟨l, hl⟩ := ByteArray.exists_of_utf8DecodeChar?_eq_some h
  have hs : input.data.toList.drop i = String.utf8EncodeChar c ++ l.data.toList := by
    have hd := congrArg (fun b : ByteArray => b.data.toList) hl
    simp only [ByteArray.data_extract, ByteArray.data_append, Array.toList_extract,
      Array.toList_append, List.extract_eq_drop_take'] at hd
    have ht : input.data.toList.take input.size = input.data.toList :=
      List.take_of_length_le (by rw [Array.length_toList]; exact Nat.le_refl _)
    simpa [ht] using hd
  rw [hs, ← List.drop_drop, hs]
  simp

theorem bytes_decodeFrom (input : ByteArray) (i : Nat) :
    (decodeFrom input i).flatMap bytes = input.data.toList.drop i := by
  fun_induction decodeFrom input i with
  | case1 i h c hc ih => simp [ih, bytes, drop_of_decode hc]
  | case2 i h hc ih =>
    have hi : i < input.data.toList.length := by rw [Array.length_toList]; exact h
    rw [List.drop_eq_getElem_cons hi]
    simp [ih, bytes]
    rfl
  | case3 i h =>
    have : input.data.toList.length ≤ i := by
      rw [Array.length_toList]; exact Nat.le_of_not_lt h
    simp [List.drop_eq_nil_of_le this]

/-- Reading loses nothing: the bytes of the glyphs are the bytes read. -/
theorem bytes_decode (input : ByteArray) :
    (decode input).flatMap bytes = input.data.toList := by
  simpa [decode] using bytes_decodeFrom input 0

/-- The text shown for a sequence of glyphs. -/
def text (gs : List Glyph) : String := String.ofList (gs.map shown)

/-- The number of bytes a sequence of glyphs was read from. -/
def size : List Glyph → Nat
  | [] => 0
  | g :: gs => g.width + size gs

@[simp] theorem size_nil : size [] = 0 := rfl

@[simp] theorem size_cons (g : Glyph) (gs : List Glyph) : size (g :: gs) = g.width + size gs := rfl

@[simp] theorem size_append (gs hs : List Glyph) : size (gs ++ hs) = size gs + size hs := by
  induction gs with
  | nil => simp
  | cons g gs ih => simp [ih, Nat.add_assoc]

end Glyph

end Shading.Text
