import Mathlib.Data.List.Basic
import Shading.Proofs.Items

/-!
# Texts by their lines

A text of whole lines is read line by line. Empty lines say nothing, so what a text of several parts says is what its
parts say one after another, whatever empty lines stand between them. Most lines are told apart by their first word.
-/

namespace Shading

open List

namespace Text

variable {c : Char} {s t ending : String}

/-! ## Parts of a text -/

theorem takeWhile_bne (h : c ∉ s.toList) (rest : List Char) :
    (s.toList ++ rest).takeWhile (· != c) = s.toList ++ rest.takeWhile (· != c) := by
  apply takeWhile_append_of_pos
  intro d hd
  rw [bne_iff_ne]
  rintro rfl
  exact h hd

theorem cutAt_of_not_mem (h : c ∉ s.toList) : cutAt c s = (s, none) := by
  have hall : s.toList.takeWhile (· != c) = s.toList := by simpa using takeWhile_bne h []
  simp only [cutAt, hall, drop_length]

/-- The text before the first of the given characters. -/
theorem cutAt_append (h : c ∉ s.toList) (t : String) : cutAt c (s ++ (String.singleton c ++ t)) = (s, some t) := by
  have hbefore : (s.toList ++ c :: t.toList).takeWhile (· != c) = s.toList := by simp [takeWhile_bne h]
  simp [cutAt, hbefore]

theorem behind?_append (s t : String) : behind? s (s ++ t) = some t := behind?_eq_some_iff.2 rfl

theorem trimStart_append (s t : String) : trimStart s (s ++ t) = t := by
  rw [trimStart, behind?_append, Option.getD_some]

theorem trimEnd_append (s t : String) : trimEnd t (s ++ t) = s := by
  have hbefore : before? t (s ++ t) = some s := by
    simp [before?, ← String.length_toList]
  rw [trimEnd, hbefore, Option.getD_some]

/-! ## Lines -/

/-- The text has no newline. -/
def OneLine (s : String) : Prop := '\n' ∉ s.toList

instance (s : String) : Decidable (OneLine s) := inferInstanceAs (Decidable (¬ _))

theorem OneLine.append (hs : OneLine s) (ht : OneLine t) : OneLine (s ++ t) := by
  rw [OneLine, String.toList_append, mem_append]
  exact not_or.2 ⟨hs, ht⟩

theorem OneLine.join {ts : List String} (h : ∀ t ∈ ts, OneLine t) : OneLine (String.join ts) := by
  induction ts with
  | nil => decide
  | cons t ts ih =>
    rw [String.join_cons]
    exact (h t mem_cons_self).append (ih fun u hu => h u (mem_cons_of_mem _ hu))

theorem lines_append (s t : String) : lines (s ++ ("\n" ++ t)) = lines s ++ lines t := by
  have hchars : (s ++ ("\n" ++ t)).toList = s.toList ++ '\n' :: t.toList := by simp
  rw [lines, hchars, splitOn_append_cons_self, map_append, lines, lines]

theorem lines_of_oneLine (h : OneLine s) : lines s = [s] := by
  rw [lines, splitOn_eq_singleton h, map_singleton, String.ofList_toList]

/-- Nothing between two separators is one. -/
theorem not_mem_of_mem_splitOn {cs : List Char} : ∀ piece ∈ cs.splitOn c, c ∉ piece := by
  induction cs with
  | nil => simp
  | cons d cs ih =>
    rw [splitOn_cons_eq_if_modifyHead]
    by_cases hd : d = c
    · rw [if_pos (beq_iff_eq.2 hd), forall_mem_cons]
      exact ⟨not_mem_nil, ih⟩
    · rw [if_neg (by simpa using hd)]
      obtain ⟨first, rest, hpieces⟩ := exists_cons_of_ne_nil (splitOn_ne_nil c cs)
      rw [hpieces] at ih ⊢
      rw [modifyHead_cons, forall_mem_cons]
      rw [forall_mem_cons] at ih
      refine ⟨?_, ih.2⟩
      rw [mem_cons, not_or]
      exact ⟨fun h => hd h.symm, ih.1⟩

theorem oneLine_of_mem_lines {line : String} (h : line ∈ lines s) : OneLine line := by
  obtain ⟨piece, hpiece, rfl⟩ := mem_map.1 h
  rw [OneLine, String.toList_ofList]
  exact not_mem_of_mem_splitOn piece hpiece

/-- The lines of a text that are not empty. -/
def codeLines (s : String) : List String := (lines s).filter fun line => !line.isEmpty

/-- The text is empty or ends with a newline. -/
def Whole (s : String) : Prop := s = "" ∨ ∃ t, s = t ++ "\n"

theorem Whole.empty : Whole "" := .inl rfl

theorem Whole.line (s : String) : Whole (s ++ "\n") := .inr ⟨s, rfl⟩

theorem Whole.append (hs : Whole s) (ht : Whole t) : Whole (s ++ t) := by
  rcases ht with rfl | ⟨t, rfl⟩
  · rwa [String.append_empty]
  · rw [← String.append_assoc]
    exact .line _

theorem Whole.join {ts : List String} (h : ∀ t ∈ ts, Whole t) : Whole (String.join ts) := by
  induction ts with
  | nil => exact .empty
  | cons t ts ih =>
    rw [String.join_cons]
    exact (h t mem_cons_self).append (ih fun u hu => h u (mem_cons_of_mem _ hu))

@[simp] theorem codeLines_empty : codeLines "" = [] := by decide

theorem codeLines_of_oneLine (h : OneLine s) : codeLines s = [s].filter fun line => !line.isEmpty := by
  rw [codeLines, lines_of_oneLine h]

/-- A newline at the end begins an empty line. -/
theorem codeLines_newline (s : String) : codeLines (s ++ "\n") = codeLines s := by
  rw [← String.append_empty (s := "\n"), codeLines, lines_append, filter_append]
  exact append_nil _

/-- Behind whole lines a new line begins. -/
theorem codeLines_append (h : Whole s) (t : String) : codeLines (s ++ t) = codeLines s ++ codeLines t := by
  rcases h with rfl | ⟨s, rfl⟩
  · rw [String.empty_append, codeLines_empty, nil_append]
  · rw [codeLines_newline, String.append_assoc, codeLines, lines_append, filter_append, codeLines, codeLines]

def ofLines (ls : List String) : String := String.join (ls.map (· ++ "\n"))

@[simp] theorem ofLines_nil : ofLines [] = "" := rfl

@[simp] theorem ofLines_cons (l : String) (ls : List String) : ofLines (l :: ls) = l ++ ("\n" ++ ofLines ls) := by
  rw [ofLines, map_cons, String.join_cons, String.append_assoc, ofLines]

@[simp] theorem ofLines_append (ls ms : List String) : ofLines (ls ++ ms) = ofLines ls ++ ofLines ms := by
  rw [ofLines, map_append, String.join_append, ofLines, ofLines]

theorem Whole.ofLines (ls : List String) : Whole (ofLines ls) := by
  apply Whole.join
  intro t ht
  obtain ⟨l, -, rfl⟩ := mem_map.1 ht
  exact .line l

theorem codeLines_ofLines {ls : List String} (h : ∀ l ∈ ls, OneLine l) :
    codeLines (ofLines ls) = ls.filter fun line => !line.isEmpty := by
  induction ls with
  | nil => exact codeLines_empty
  | cons l ls ih =>
    rw [forall_mem_cons] at h
    rw [ofLines_cons, ← String.append_assoc, codeLines_append (.line l), codeLines_newline, codeLines_of_oneLine h.1,
      ih h.2, ← filter_append, singleton_append]

/-! ## First words -/

def firstWord (s : String) : String := (cutAt ' ' s).1

theorem firstWord_append (h : ' ' ∉ s.toList) (t : String) : firstWord (s ++ (" " ++ t)) = s := by
  rw [firstWord, show " " = String.singleton ' ' from rfl, cutAt_append h]

theorem behind?_word {word : String} (hword : ' ' ∉ word.toList) (h : firstWord s ≠ word) :
    behind? (word ++ " ") s = none := by
  rw [Option.eq_none_iff_forall_ne_some]
  intro t ht
  rw [behind?_eq_some_iff, String.append_assoc] at ht
  apply h
  rw [ht, firstWord_append hword]

end Text

namespace Spaced

open Text

/-- The lines of a text that consists of several ones are theirs. -/
theorem codeLines_eq {ts : List String} {text : String} (h : Spaced ts text) (hts : ∀ t ∈ ts, Whole t) :
    codeLines text = ts.flatMap codeLines := by
  induction h with
  | nil => exact codeLines_empty
  | cons _ ih =>
    rw [forall_mem_cons] at hts
    rw [codeLines_append hts.1, ih hts.2, flatMap_cons]
  | gap _ ih =>
    have hnone : codeLines "\n" = [] := by decide
    have hline : Whole "\n" := .line ""
    rw [codeLines_append hline, ih hts, hnone, nil_append]

end Spaced

end Shading
