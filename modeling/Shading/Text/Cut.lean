/-!
# Cutting texts

The parts of a text before and behind a character, its lines, and what is left of it without a given
beginning or end.
-/

namespace Shading.Text

/-- The text before the first occurrence of a character, and the text behind it if it occurs. -/
def cutAt (c : Char) (s : String) : String × Option String :=
  let before := s.toList.takeWhile (· != c)
  match s.toList.drop before.length with
  | [] => (s, none)
  | _ :: rest => (String.ofList before, some (String.ofList rest))

/-- The lines of a text, without the newlines between them. -/
def lines (s : String) : List String := (s.toList.splitOn '\n').map String.ofList

/-- The text behind a given beginning, if it has it. -/
def behind? (start s : String) : Option String :=
  if start.toList.isPrefixOf s.toList then some (String.ofList (s.toList.drop start.length)) else none

/-- The text without a given beginning; a text that does not have it is left as it is. -/
def trimStart (start s : String) : String := (behind? start s).getD s

/-- The text before a given end, if it has it. -/
def before? (ending s : String) : Option String :=
  if ending.toList.isSuffixOf s.toList then
    some (String.ofList (s.toList.take (s.length - ending.length)))
  else none

/-- The text without a given end; a text that does not have it is left as it is. -/
def trimEnd (ending s : String) : String := (before? ending s).getD s

theorem behind?_eq_some_iff {start s t : String} : behind? start s = some t ↔ s = start ++ t := by
  unfold behind?
  constructor
  · intro h
    split at h
    · rename_i hp
      obtain ⟨r, hr⟩ := List.isPrefixOf_iff_prefix.1 hp
      cases h
      apply String.toList_inj.1
      simp [← hr, ← String.length_toList]
    · cases h
  · rintro rfl
    simp [← String.length_toList]

end Shading.Text
