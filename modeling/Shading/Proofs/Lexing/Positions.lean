import Mathlib.Data.List.DropRight
import Shading.Source

/-!
# Bytes and positions

A source text is read glyph by glyph, but it is a sequence of bytes. Cut between two glyphs, its parts are decoded like
the whole (`Decoded.left`, `Decoded.right`), and a byte below 128 is always a character of its own
(`Decoded.exists_char`). So the position behind a part of a text can be read off its bytes (`Position.after_first`): the
line counts the newline bytes, and the column the characters in the bytes behind the last newline.
-/

namespace Shading
open List Text

namespace Text.Glyph

/-- The bytes that glyphs were read from. -/
def bytesOf (gs : List Glyph) : List UInt8 := gs.flatMap bytes

@[simp] theorem bytesOf_nil : bytesOf [] = [] := rfl

@[simp] theorem bytesOf_cons (g : Glyph) (gs : List Glyph) : bytesOf (g :: gs) = g.bytes ++ bytesOf gs := rfl

@[simp] theorem bytesOf_append (gs hs : List Glyph) : bytesOf (gs ++ hs) = bytesOf gs ++ bytesOf hs :=
  flatMap_append

theorem length_bytesOf (gs : List Glyph) : (bytesOf gs).length = size gs := by
  induction gs with
  | nil => rfl
  | cons g gs ih => rw [bytesOf_cons, length_append, length_bytes, ih, size_cons]

def ofBytes (input : List UInt8) : List Glyph := decode input.toByteArray

theorem decode_eq_ofBytes (input : ByteArray) : decode input = ofBytes input.data.toList := by
  have hinput : input.data.toList.toByteArray = input :=
    ByteArray.ext (by rw [data_toByteArray, Array.toArray_toList])
  rw [ofBytes, hinput]

theorem bytesOf_ofBytes (input : List UInt8) : bytesOf (ofBytes input) = input := by
  rw [bytesOf, ofBytes, bytes_decode, toList_data_toByteArray]

section Decoding

variable {a b : ByteArray} {i j : Nat}

theorem utf8DecodeChar?_congr (h : a.data.toList.drop i = b.data.toList.drop j) :
    a.utf8DecodeChar? i = b.utf8DecodeChar? j := by
  have htoList : ∀ (c : ByteArray) (k : Nat), (c.extract k c.size).data.toList = c.data.toList.drop k := by
    intro c k
    have hall : c.data.toList.take c.size = c.data.toList :=
      take_of_length_le (by rw [Array.length_toList]; exact Nat.le_refl _)
    rw [ByteArray.data_extract, Array.toList_extract, extract_eq_drop_take', hall]
  have hextract : a.extract i a.size = b.extract j b.size := by
    apply ByteArray.ext
    rw [← Array.toList_inj, htoList, htoList, h]
  rw [ByteArray.utf8DecodeChar?_eq_utf8DecodeChar?_extract, hextract,
    ← ByteArray.utf8DecodeChar?_eq_utf8DecodeChar?_extract]

/-- Decoding looks at the bytes ahead only. -/
theorem decodeFrom_congr (h : a.data.toList.drop i = b.data.toList.drop j) : decodeFrom a i = decodeFrom b j := by
  have hnext : ∀ {i j : Nat} (n : Nat), a.data.toList.drop i = b.data.toList.drop j →
      a.data.toList.drop (i + n) = b.data.toList.drop (j + n) := by
    intro i j n h
    rw [← drop_drop, h, drop_drop]
  have hahead : ∀ {i j : Nat}, a.data.toList.drop i = b.data.toList.drop j → a.size - i = b.size - j := by
    intro i j h
    have hlength := congrArg List.length h
    rwa [length_drop, length_drop, Array.length_toList, Array.length_toList] at hlength
  fun_induction decodeFrom a i generalizing j with
  | case1 i hi c hc ih =>
    have hj : j < b.size := by
      have := hahead h
      omega
    rw [utf8DecodeChar?_congr h] at hc
    rw [decodeFrom.eq_def b, dif_pos hj, hc, ih (hnext c.utf8Size h)]
  | case2 i hi hc ih =>
    have hj : j < b.size := by
      have := hahead h
      omega
    have hbyte : a[i] = b[j] := by
      have hhead := congrArg List.head? h
      rw [head?_drop, head?_drop, Array.getElem?_toList, Array.getElem?_toList,
        Array.getElem?_eq_getElem hi, Array.getElem?_eq_getElem hj] at hhead
      exact Option.some.inj hhead
    rw [utf8DecodeChar?_congr h] at hc
    rw [decodeFrom.eq_def b, dif_pos hj, hc, ih (hnext 1 h), hbyte]
  | case3 i hi =>
    have hj : ¬ j < b.size := by
      have := hahead h
      omega
    rw [decodeFrom, dif_neg hj]

end Decoding

theorem ofBytes_nil : ofBytes [] = [] := by
  rw [ofBytes, decode, decodeFrom, dif_neg]
  exact Nat.lt_irrefl 0

/-- A text that starts with the bytes of a character is decoded to the character and what follows. -/
theorem ofBytes_append (c : Char) (rest : List UInt8) :
    ofBytes (String.utf8EncodeChar c ++ rest) = .char c :: ofBytes rest := by
  have hdecode : (String.utf8EncodeChar c ++ rest).toByteArray.utf8DecodeChar? 0 = some c := by
    rw [toByteArray_append, ByteArray.utf8DecodeChar?_utf8EncodeChar_append]
  have hsize : 0 < (String.utf8EncodeChar c ++ rest).toByteArray.size := by
    rw [size_toByteArray, length_append, String.length_utf8EncodeChar]
    exact Nat.add_pos_left c.utf8Size_pos _
  rw [ofBytes, decode, decodeFrom, dif_pos hsize, hdecode]
  refine congrArg (.char c :: ·) (decodeFrom_congr ?_)
  rw [toList_data_toByteArray, toList_data_toByteArray, Nat.zero_add, ← String.length_utf8EncodeChar,
    drop_left, drop_zero]

/-- A byte that starts no character is decoded to itself. -/
theorem ofBytes_cons {b : UInt8} {rest : List UInt8} (h : ∀ c more, b :: rest ≠ String.utf8EncodeChar c ++ more) :
    ofBytes (b :: rest) = .stray b :: ofBytes rest := by
  have hdecode : (b :: rest).toByteArray.utf8DecodeChar? 0 = none := by
    by_contra hsome
    obtain ⟨c, hc⟩ := Option.ne_none_iff_exists'.1 hsome
    obtain ⟨more, hmore⟩ := ByteArray.exists_of_utf8DecodeChar?_eq_some hc
    have hlist := congrArg (fun x : ByteArray => x.data.toList) hmore
    simp only [toList_data_toByteArray, ByteArray.data_append, Array.toList_append] at hlist
    exact h c _ hlist
  have hsize : 0 < (b :: rest).toByteArray.size := by
    rw [size_toByteArray]
    exact Nat.succ_pos _
  rw [ofBytes, decode, decodeFrom, dif_pos hsize, hdecode]
  have hbyte : (b :: rest).toByteArray[0] = b := getElem_toByteArray
  rw [hbyte]
  refine congrArg (.stray b :: ·) (decodeFrom_congr ?_)
  rw [toList_data_toByteArray, toList_data_toByteArray, Nat.zero_add, drop_one, tail_cons,
    drop_zero]

/-- The glyphs are those that their bytes are decoded to. -/
def Decoded (gs : List Glyph) : Prop := ofBytes (bytesOf gs) = gs

namespace Decoded

variable {gs hs : List Glyph}

theorem nil : Decoded [] := ofBytes_nil

theorem of_ofBytes (input : List UInt8) : Decoded (ofBytes input) := by
  rw [Decoded, bytesOf_ofBytes]

/-- A byte that is decoded to itself starts no character, whatever follows. -/
theorem not_starts {b : UInt8} (h : Decoded (.stray b :: gs)) (c : Char) (more : List UInt8) :
    b :: bytesOf gs ≠ String.utf8EncodeChar c ++ more := by
  intro heq
  rw [Decoded] at h
  change ofBytes (b :: bytesOf gs) = _ at h
  rw [heq, ofBytes_append] at h
  cases h

theorem tail {g : Glyph} (h : Decoded (g :: gs)) : Decoded gs := by
  cases g with
  | char c =>
    rw [Decoded, bytesOf_cons, bytes, ofBytes_append] at h
    exact (List.cons.inj h).2
  | stray b =>
    have hstarts := h.not_starts
    rw [Decoded, bytesOf_cons, bytes, singleton_append, ofBytes_cons hstarts] at h
    exact (List.cons.inj h).2

theorem right (h : Decoded (gs ++ hs)) : Decoded hs := by
  induction gs with
  | nil => exact h
  | cons g gs ih => exact ih h.tail

theorem left (h : Decoded (gs ++ hs)) : Decoded gs := by
  induction gs with
  | nil => exact nil
  | cons g gs ih =>
    have hrest : ofBytes (bytesOf gs) = gs := ih h.tail
    cases g with
    | char c => rw [Decoded, bytesOf_cons, bytes, ofBytes_append, hrest]
    | stray b =>
      have hstarts : ∀ c more, b :: bytesOf gs ≠ String.utf8EncodeChar c ++ more := by
        intro c more heq
        have hstray : Decoded (.stray b :: (gs ++ hs)) := h
        refine hstray.not_starts c (more ++ bytesOf hs) ?_
        rw [bytesOf_append, ← cons_append, heq, append_assoc]
      rw [Decoded, bytesOf_cons, bytes, singleton_append, ofBytes_cons hstarts, hrest]

end Decoded

/-! ## Characters of one byte -/

theorem bytes_of_one {c : Char} (hc : c.utf8Size = 1) : (char c).bytes = [c.toUInt8] :=
  String.utf8EncodeChar_eq_singleton hc

theorem toNat_of_one {c : Char} (hc : c.utf8Size = 1) : c.toUInt8.toNat = c.toNat ∧ c.toNat < 128 := by
  have hle : c.toNat ≤ 127 := UInt32.le_iff_toNat_le.1 (Char.utf8Size_eq_one_iff.1 hc)
  have hbyte : c.toUInt8.toNat = c.toNat % 256 := UInt32.toNat_toUInt8 c.val
  omega

/-- A character of several bytes has none below 128. -/
theorem le_of_mem_bytes {c : Char} (hc : c.utf8Size ≠ 1) : ∀ b ∈ (char c).bytes, 128 ≤ b.toNat := by
  have hlt : ¬ c.val.toNat ≤ 127 := fun h => hc (Char.utf8Size_eq_one_iff.2 (UInt32.le_iff_toNat_le.2 h))
  show ∀ b ∈ String.utf8EncodeChar c, _
  rw [String.utf8EncodeChar.eq_def]
  dsimp only
  rw [if_neg hlt]
  split
  · simp
    omega
  · split
    · simp
      omega
    · simp
      omega

namespace Decoded

variable {gs : List Glyph}

/-- A byte that is decoded to itself is not below 128. -/
theorem le_of_stray {b : UInt8} (h : Decoded (.stray b :: gs)) : 128 ≤ b.toNat := by
  by_contra hb
  have hval : (Char.ofUInt8 b).val.toNat = b.toNat := UInt8.toNat_toUInt32 b
  have hone : (Char.ofUInt8 b).utf8Size = 1 := by
    rw [Char.utf8Size_eq_one_iff, UInt32.le_iff_toNat_le, hval]
    exact Nat.le_of_lt_succ (Nat.lt_of_not_le hb)
  have hbyte : (Char.ofUInt8 b).toUInt8 = b := by
    rw [← UInt8.toNat_inj, (toNat_of_one hone).1]
    exact hval
  refine h.not_starts (Char.ofUInt8 b) (bytesOf gs) ?_
  rw [String.utf8EncodeChar_eq_singleton hone, singleton_append]
  exact congrArg (· :: bytesOf gs) hbyte.symm

/-- Only a character of one byte has the byte of a character of one byte. -/
theorem eq_char {g : Glyph} (h : Decoded (g :: gs)) {c : Char} (hc : c.utf8Size = 1) (hmem : c.toUInt8 ∈ g.bytes) :
    g = .char c := by
  obtain ⟨hbyte, hlt⟩ := toNat_of_one hc
  cases g with
  | stray b =>
    rw [bytes, mem_singleton] at hmem
    have hle := h.le_of_stray
    rw [← hmem] at hle
    omega
  | char d =>
    by_cases hd : d.utf8Size = 1
    · rw [bytes_of_one hd, mem_singleton] at hmem
      have heq : c.toNat = d.toNat := by rw [← hbyte, hmem, (toNat_of_one hd).1]
      rw [Char.toNat_inj.1 heq]
    · have hle := le_of_mem_bytes hd _ hmem
      omega

/-- Where a byte of a text is that of a character, the character stands between the bytes around it. -/
theorem exists_char (h : Decoded gs) {c : Char} (hc : c.utf8Size = 1) {before behind : List UInt8}
    (hbytes : bytesOf gs = before ++ c.toUInt8 :: behind) :
    ∃ us vs, gs = us ++ .char c :: vs ∧ bytesOf us = before ∧ bytesOf vs = behind := by
  induction gs generalizing before with
  | nil => simp at hbytes
  | cons g gs ih =>
    rw [bytesOf_cons] at hbytes
    -- The byte lies behind the bytes of the first glyph, or is one of them.
    obtain ⟨more, hbefore, hrest⟩ | ⟨more, hg, hrest⟩ := append_eq_append_iff.1 hbytes
    · obtain ⟨us, vs, rfl, hus, hvs⟩ := ih h.tail hrest
      exact ⟨g :: us, vs, rfl, by rw [bytesOf_cons, hus, hbefore], hvs⟩
    · cases more with
      | nil =>
        obtain ⟨us, vs, rfl, hus, hvs⟩ := @ih h.tail [] hrest.symm
        refine ⟨g :: us, vs, rfl, ?_, hvs⟩
        rw [bytesOf_cons, hus, hg, append_nil, append_nil]
      | cons b more =>
        obtain ⟨rfl, hbehind⟩ := List.cons.inj hrest
        obtain rfl := h.eq_char hc (by rw [hg]; simp)
        rw [bytes_of_one hc, singleton_eq_append_iff] at hg
        obtain ⟨rfl, hmore⟩ | ⟨-, hnil⟩ := hg
        · obtain ⟨-, rfl⟩ := List.cons.inj hmore
          exact ⟨[], gs, rfl, rfl, hbehind.symm⟩
        · cases hnil

/-- Where the bytes of a text start with those of characters, the text starts with the characters. -/
theorem prefix_chars (h : Decoded gs) {cs : List Char} (hbytes : bytesOf (cs.map char) <+: bytesOf gs) :
    cs.map char <+: gs := by
  induction cs generalizing gs with
  | nil => exact nil_prefix
  | cons c cs ih =>
    obtain ⟨rest, hrest⟩ := hbytes
    rw [map_cons, bytesOf_cons, bytes, append_assoc] at hrest
    rw [Decoded, ← hrest, ofBytes_append] at h
    subst h
    rw [map_cons, cons_prefix_cons]
    refine ⟨rfl, ih (of_ofBytes _) ?_⟩
    rw [bytesOf_ofBytes]
    exact prefix_append _ _

end Decoded

end Text.Glyph

/-! ## Positions -/

namespace Position

open Glyph (bytesOf Decoded)

/-- The position behind the given first bytes of a text. The line counts the newlines among them, and the column the
characters behind the last one; a byte that belongs to no character counts as one. -/
def behind (input : List UInt8) : Position where
  line := 1 + input.count '\n'.toUInt8
  column := 1 + (Glyph.ofBytes (input.rtakeWhile (· != '\n'.toUInt8))).length
  offset := input.length

def lastLine (gs : List Glyph) : List Glyph := gs.rtakeWhile fun g => !g.is '\n'

theorem column_after (gs : List Glyph) : (first.after gs).column = 1 + (lastLine gs).length := by
  induction gs using List.reverseRecOn with
  | nil => rfl
  | append_singleton gs g ih =>
    rw [after_append, after_cons, after_nil, advance, lastLine, rtakeWhile_concat]
    cases hg : g.is '\n' with
    | true => rfl
    | false =>
      simp only [Bool.false_eq_true, if_false, Bool.not_false, if_true, length_append, length_singleton, ih,
        lastLine]
      omega

variable {gs : List Glyph}

/-- A newline byte stands in a newline glyph only. -/
theorem newline_notMem_bytes {g : Glyph} (h : Decoded (gs ++ [g])) (hg : g.is '\n' = false) :
    '\n'.toUInt8 ∉ g.bytes := by
  intro hmem
  rw [h.right.eq_char (by decide) hmem] at hg
  exact absurd hg (by decide)

theorem line_after (h : Decoded gs) : (first.after gs).line = 1 + (bytesOf gs).count '\n'.toUInt8 := by
  induction gs using List.reverseRecOn with
  | nil => rfl
  | append_singleton gs g ih =>
    rw [after_append, after_cons, after_nil, advance, Glyph.bytesOf_append, count_append]
    cases hg : g.is '\n' with
    | true =>
      have hcount : (bytesOf [g]).count '\n'.toUInt8 = 1 := by
        rw [eq_of_beq hg]
        rfl
      rw [if_pos rfl, hcount]
      dsimp only
      rw [ih h.left]
      omega
    | false =>
      rw [if_neg Bool.false_ne_true, ih h.left, Glyph.bytesOf_cons, Glyph.bytesOf_nil, append_nil,
        count_eq_zero_of_not_mem (newline_notMem_bytes h hg), Nat.add_zero]

theorem bytesOf_lastLine (h : Decoded gs) :
    (bytesOf gs).rtakeWhile (· != '\n'.toUInt8) = bytesOf (lastLine gs) := by
  induction gs using List.reverseRecOn with
  | nil => rfl
  | append_singleton gs g ih =>
    rw [lastLine, rtakeWhile_concat, Glyph.bytesOf_append, Glyph.bytesOf_cons, Glyph.bytesOf_nil, append_nil]
    cases hg : g.is '\n' with
    | true =>
      rw [eq_of_beq hg, Glyph.bytes_of_one (by decide), rtakeWhile_concat]
      rfl
    | false =>
      have hall : ∀ b ∈ g.bytes.reverse, (b != '\n'.toUInt8) = true := by
        intro b hb
        rw [bne_iff_ne]
        rintro rfl
        exact newline_notMem_bytes h hg (mem_reverse.1 hb)
      rw [List.rtakeWhile, reverse_append, takeWhile_append_of_pos hall, reverse_append,
        reverse_reverse, ← List.rtakeWhile, ih h.left]
      simp [lastLine]

/-- Positions kept up while a text is read are those that its bytes give. -/
theorem after_first (h : Decoded gs) : first.after gs = behind (bytesOf gs) := by
  have hlast : Decoded (lastLine gs) := by
    obtain ⟨us, hus⟩ := rtakeWhile_suffix (fun g : Glyph => !g.is '\n') (l := gs)
    rw [← hus] at h
    exact h.right
  have hline := line_after h
  have hcolumn := column_after gs
  have hoffset := after_offset first gs
  rw [← Glyph.length_bytesOf] at hoffset
  rw [behind, bytesOf_lastLine h, hlast]
  generalize first.after gs = p at hline hcolumn hoffset ⊢
  obtain ⟨line, column, offset⟩ := p
  simp only at hline hcolumn hoffset
  rw [hline, hcolumn, hoffset]
  exact congrArg (Position.mk _ _) (Int.zero_add _)

end Position

end Shading
