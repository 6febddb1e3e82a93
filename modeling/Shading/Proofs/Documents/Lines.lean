import Mathlib.Data.List.Basic
import Shading.Toml.Printer
import Shading.Toml.Reader

/-!
# Lines of a document

What a line of a written document is read as. A text is read token by token, and `Lexes m cs ts` says that all of `cs` is
read as `ts` where `m` says what is expected. Each lemma puts one thing in front of a text that is read already: blanks, a
key, a header, a text in quotes, a truth value or a list of texts. A key of bare names with dots between them is cut into
these names again (`splitKey_dotted`). A character keeps its meaning in quotes unless it lies beyond the first
65536 and the last sixteen bits of its code are less than 31 (`restoredChar`).
-/

namespace Shading.Toml

open List

/-! ## Tokens of a text -/

/-- All of the text is read as the tokens. -/
def Lexes (m : Mode) (cs : List Char) (ts : List Token) : Prop := tokensFrom cs.length m cs = (ts, [])

variable {n : Nat} {m m' : Mode} {cs rest after : List Char} {ts : List Token} {c : Char} {s name : String}
  {path : Path}

/-- A name that stands in a key without quotes. -/
def IsBareName (s : String) : Prop := s ≠ "" ∧ ∀ c ∈ s.toList, isBare c = true

instance (s : String) : Decidable (IsBareName s) :=
  @instDecidableAnd _ _ instDecidableNot (List.decidableBAll _ s.toList)

theorem IsBareName.exists_cons (h : IsBareName s) :
    ∃ c cs, s.toList = c :: cs ∧ isBare c = true ∧ ∀ d ∈ cs, isBare d = true := by
  obtain ⟨hne, hall⟩ := h
  cases hs : s.toList with
  | nil => exact absurd (String.toList_eq_nil_iff.1 hs) hne
  | cons c cs =>
    rw [hs, forall_mem_cons] at hall
    exact ⟨c, cs, rfl, hall⟩

/-- The names of a path with dots between them, as they stand in a header. -/
def dotted (path : Path) : String := path.foldl pathTo ""

/-- The character that is read where `c` was written. -/
def restoredChar (c : Char) : Char := if c.toNat % 0x10000 < 31 then Char.ofNat (c.toNat % 0x10000) else c

/-- The text that is read where `s` was written. -/
def restoredText (s : String) : String := String.ofList (s.toList.map restoredChar)

/-- The one control character that is written as it is, which no text in quotes may hold. -/
def unitSeparator : Char := Char.ofNat 31

/-- The text can be read at all. -/
def IsQuotable (s : String) : Prop := unitSeparator ∉ s.toList

theorem escapeLetter?_eq_none (hc : 32 ≤ c.toNat) (hquote : c ≠ '"') (hslash : c ≠ '\\') :
    escapeLetter? c = none := by
  have hcontrols : ∀ e ∈ [('\n', 'n'), ('\t', 't'), ('\r', 'r'), (Char.ofNat 8, 'b'), (Char.ofNat 12, 'f')],
      e.1.toNat < 32 := by decide
  refine lookup_eq_none_iff.2 fun e he => ?_
  rcases mem_cons.1 he with rfl | he
  · simpa using hquote
  rcases mem_cons.1 he with rfl | he
  · simpa using hslash
  · have hne : c ≠ e.1 := by
      rintro rfl
      exact absurd (hcontrols e he) (by omega)
    simpa using hne

/-- Which characters come back: all but those that the rule of the format keeps and that are written as codes all the
same. -/
theorem restoredChar_eq_self_iff :
    restoredChar c = c ↔ (32 ≤ c.toNat → c ≠ '"' → c ≠ '\\' → writtenChar c = [c]) := by
  by_cases hcode : c.toNat % 0x10000 < 31
  · rw [restoredChar, if_pos hcode]
    by_cases hsmall : c.toNat < 0x10000
    · rw [Nat.mod_eq_of_lt hsmall] at hcode ⊢
      have hne : ¬ 32 ≤ c.toNat := by omega
      simp [hne]
    · have hcodes : ∀ n < 31, (Char.ofNat n).toNat = n := by decide
      have hchar := hcodes _ hcode
      have hlost : Char.ofNat (c.toNat % 0x10000) ≠ c := by
        intro heq
        rw [heq] at hchar
        omega
      have hquote : c ≠ '"' := by
        rintro rfl
        exact hsmall (by decide)
      have hslash : c ≠ '\\' := by
        rintro rfl
        exact hsmall (by decide)
      have hlarge : 32 ≤ c.toNat := by omega
      have hwritten : writtenChar c = '\\' :: 'u' :: (Text.hexDigits 4 (c.toNat % 0x10000)).map Char.toUpper := by
        rw [writtenChar, escapeLetter?_eq_none hlarge hquote hslash]
        exact if_pos hcode
      simp [hlost, hquote, hslash, hlarge, hwritten]
  · rw [restoredChar, if_neg hcode]
    refine iff_of_true rfl fun hlarge hquote hslash => ?_
    rw [writtenChar, escapeLetter?_eq_none hlarge hquote hslash]
    exact if_neg hcode

/-- The rule of the format for characters without an escape holds in the text: from the blank on, all but quotes and
backslashes are written as they are. -/
def KeepsRest (s : String) : Prop :=
  ∀ c ∈ s.toList, 32 ≤ c.toNat → c ≠ '"' → c ≠ '\\' → writtenChar c = [c]

instance (s : String) : Decidable (KeepsRest s) := List.decidableBAll _ s.toList

theorem restoredText_eq_self_iff : restoredText s = s ↔ KeepsRest s := by
  have hchars : restoredText s = s ↔ s.toList.map restoredChar = s.toList.map id := by
    rw [map_id, ← String.toList_inj, restoredText, String.toList_ofList]
  rw [hchars, map_inj_left]
  exact forall₂_congr fun _ _ => restoredChar_eq_self_iff

end Shading.Toml
