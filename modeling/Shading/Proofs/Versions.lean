import Shading.Proofs.Carriers.Copies
import Shading.Proofs.Naming
import Shading.Proofs.Outputs.Texts

/-!
# Versions are read back

A version is written as its number with the profile behind it, but embedded versions below 300 are written without. A
number alone is read as a desktop version, save 100. So the text of a version names the same number, and the same
language unless it is an embedded version between these two.
-/

namespace Shading

open List

namespace Text

/-- Characters that are no white space go on with the current word. -/
theorem wordsFrom_append {w : List Char} (h : ∀ c ∈ w, isSpace c = false) (word rest : List Char) :
    wordsFrom word (w ++ rest) = wordsFrom (w.reverse ++ word) rest := by
  induction w generalizing word with
  | nil => rfl
  | cons c w ih =>
    rw [forall_mem_cons] at h
    rw [cons_append, wordsFrom, if_neg (by simp [h.1]), ih h.2]
    simp

/-- Digits have no case and are no white space. -/
theorem plain_of_isDigit {c : Char} (h : c.isDigit = true) : toLower c = c ∧ isSpace c = false := by
  obtain ⟨hlow, hhigh⟩ : 48 ≤ c.toNat ∧ c.toNat ≤ 57 := Char.isDigit_iff_toNat.1 h
  constructor
  · rw [toLower_of_ascii (by omega), Char.toLower, dif_neg]
    rintro ⟨hupper, -⟩
    have hle : 65 ≤ c.toNat := UInt32.le_iff_toNat_le.1 hupper
    omega
  · simp only [isSpace, Bool.or_eq_false_iff, beq_eq_false_iff_ne, decide_eq_false_iff_not]
    omega

end Text

namespace Glsl.Version

variable {n : Nat}

/-- The number of a version is written like any other number. -/
theorem numberText_eq (hlow : 100 ≤ n) (hhigh : n ≤ 999) (es : Bool) :
    numberText ⟨n / 100, n % 100, es⟩ = toString n := by
  have hdigits : Nat.toDigits 10 n = Nat.toDigits 10 (n / 100) ++ [(n / 10 % 10).digitChar, (n % 10).digitChar] := by
    rw [Nat.toDigits_of_base_le (by decide) (by omega), Nat.toDigits_of_base_le (by decide) (by omega),
      Nat.div_div_eq_div_mul, append_assoc]
    rfl
  apply String.toList_inj.1
  simp only [numberText, String.toList_append, Nat.toString_eq_ofList_toDigits, String.toList_ofList]
  rw [hdigits, append_assoc]
  refine congrArg (Nat.toDigits 10 (n / 100) ++ ·) ?_
  by_cases hone : n % 100 < 10
  · rw [if_pos hone, Nat.toDigits_of_lt_base hone, show n / 10 % 10 = 0 by omega, show n % 10 = n % 100 by omega]
    rfl
  · rw [if_neg hone, Nat.toDigits_of_base_le (by decide) (by omega), Nat.toDigits_of_lt_base (by omega),
      show n % 100 / 10 = n / 10 % 10 by omega, show n % 100 % 10 = n % 10 by omega]
    rfl

/-- The profiles that are written behind the number of a version. -/
def profiles : List (Option String) := [none, some "es", some "core"]

/-- A profile as it is written. -/
def suffix (profile : Option String) : String := profile.elim "" (" " ++ ·)

/-- The words of a number and its profile. -/
theorem fields_numeral (n : Nat) {profile : Option String} (h : profile ∈ profiles) :
    Text.fields (Text.lowercase (toString n ++ suffix profile)) = toString n :: profile.toList := by
  have hplain : ∀ c ∈ Nat.toDigits 10 n, Text.toLower c = c ∧ Text.isSpace c = false :=
    fun c hc => Text.plain_of_isDigit (isDigit_toDigits n c hc)
  have hsuffix : ∀ c ∈ (suffix profile).toList, Text.toLower c = c := by
    simp only [profiles, mem_cons, not_mem_nil, or_false] at h
    rcases h with rfl | rfl | rfl <;> simp [suffix, Text.toLower_of_ascii]
  have hlower : Text.lowercase (toString n ++ suffix profile) = toString n ++ suffix profile := by
    apply String.toList_inj.1
    rw [Text.lowercase, String.toList_map]
    refine (map_congr_left fun c hc => ?_).trans (map_id _)
    rw [String.toList_append, Nat.toString_eq_ofList_toDigits, String.toList_ofList, mem_append] at hc
    rcases hc with hc | hc
    · exact (hplain c hc).1
    · exact hsuffix c hc
  have hwords := Text.wordsFrom_append (fun c hc => (hplain c hc).2) [] (suffix profile).toList
  rw [hlower, Text.fields, String.toList_append, Nat.toString_eq_ofList_toDigits, String.toList_ofList, hwords]
  have hne := Nat.toDigits_ne_nil (n := n) (b := 10)
  simp only [profiles, mem_cons, not_mem_nil, or_false] at h
  rcases h with rfl | rfl | rfl <;> simp [suffix, Text.wordsFrom, hne, Text.isSpace]

/-- A number of three digits is read as it stands, and so is the profile behind it. -/
theorem parse_numeral (hlow : 100 ≤ n) (hhigh : n ≤ 999) {profile : Option String} (h : profile ∈ profiles) :
    parse (toString n ++ suffix profile) = .ok ⟨n / 100, n % 100, profile == some "es" || n == 100⟩ := by
  have hmark : Text.behind? "es" (toString n) = none := by
    rw [Option.eq_none_iff_forall_ne_some]
    intro t ht
    have hdigits := isDigit_toDigits n
    rw [← String.toList_ofList (l := Nat.toDigits 10 n), ← Nat.toString_eq_ofList_toDigits,
      Text.behind?_eq_some_iff.1 ht] at hdigits
    exact absurd (hdigits 'e' (by simp)) (by decide)
  have hnumber : readNumber? (toString n) = some n := by
    rw [readNumber?, decimal?_toString (by rw [Number.power_eq]; omega)]
    simp
    omega
  have hprofile : ∀ p ∈ profiles, readProfile p = .ok (p == some "es") := by decide
  unfold parse
  rw [fields_numeral n h]
  generalize toString n = numeral at hmark hnumber
  cases profile <;> simp [hmark, hnumber, hprofile _ h, bind, Except.bind]

/-- A version that was read has a number of three digits, and is an embedded one if that is 100. -/
theorem exists_of_parse {s : String} {v : Version} (h : parse s = .ok v) :
    ∃ n es, 100 ≤ n ∧ n ≤ 999 ∧ (n = 100 → es = true) ∧ v = ⟨n / 100, n % 100, es⟩ := by
  have hnumber : ∀ {numeral : String} {n : Nat}, readNumber? numeral = some n → 100 ≤ n ∧ n ≤ 999 := by
    intro numeral n hread
    unfold readNumber? at hread
    split at hread
    · split at hread
      · cases hread
        omega
      · cases hread
    · cases hread
  unfold parse at h
  split at h
  case h_3 => cases h
  -- The two shapes that are read differ in the profile only.
  all_goals
    simp only [bind, Except.bind] at h
    split at h
    · cases h
    · split at h
      · rename_i n hn
        cases h
        exact ⟨n, _, (hnumber hn).1, (hnumber hn).2, by rintro rfl; simp, rfl⟩
      · cases h

/-- The profile that is written behind the number of a version. -/
def profile (v : Version) : Option String :=
  if v.es then (if v.number < 300 then none else some "es") else some "core"

theorem text_eq (v : Version) : v.text = v.numberText ++ suffix v.profile := by
  unfold text profile
  split <;> (try split) <;> simp [suffix]

/-- The text of a version that was read is read as the same number. It is read as the embedded language if a profile or
the number 100 says so. -/
theorem parse_text {s : String} {v : Version} (h : parse s = .ok v) :
    parse v.text = .ok { v with es := v.es && !(decide (100 < v.number) && decide (v.number < 300)) } := by
  obtain ⟨n, es, hlow, hhigh, hfirst, rfl⟩ := exists_of_parse h
  have hnumber : number ⟨n / 100, n % 100, es⟩ = n := by
    dsimp only [number]
    omega
  have hprofile : profile ⟨n / 100, n % 100, es⟩ ∈ profiles := by
    unfold profile
    split <;> (try split) <;> decide
  rw [text_eq, numberText_eq hlow hhigh, parse_numeral hlow hhigh hprofile, profile, hnumber]
  cases es
  · have hne : n ≠ 100 := by simpa using hfirst
    simp [hne]
  · have hfirst : (n == 100) = !decide (100 < n) := by
      rw [Bool.eq_iff_iff]
      simp
      omega
    by_cases hsmall : n < 300 <;> simp [hsmall, hfirst]

/-- A version that is read from some text is written with a text that is read again, as the version of the same number.
It is the same version exactly if it is no embedded version between 100 and 300, and both stages of every shader that is
compiled for it begin with its text. -/
theorem text_read_back_iff {s : String} {v : Version} (h : parse s = .ok v) :
    parse v.text = .ok { v with es := v.es && !(decide (100 < v.number) && decide (v.number < 300)) } ∧
      (parse v.text = .ok v ↔ ¬(v.es = true ∧ 100 < v.number ∧ v.number < 300)) ∧
      ∀ options extra src c events, options.version = v → compile options extra src = (.ok c, events) →
        ∀ text ∈ [c.vertexText, c.fragmentText], ∃ rest, text = "#version " ++ v.text ++ "\n" ++ rest := by
  refine ⟨parse_text h, ?_, ?_⟩
  · rw [parse_text h]
    obtain ⟨major, minor, es⟩ := v
    generalize number ⟨major, minor, es⟩ = n
    cases es <;> simp
    omega
  · rintro options extra src c events rfl hcompile
    obtain ⟨decls, p, -, -, rfl, -, -⟩ := program_of_compile hcompile
    have htarget : options.target = options.version := by
      obtain ⟨n, es, hlow, -, -, hv⟩ := exists_of_parse h
      rw [Options.target, Options.settled, if_neg]
      rw [hv]
      show n / 100 ≠ 0
      omega
    simp only [mem_cons, not_mem_nil, or_false, forall_eq_or_imp, forall_eq]
    rw [← htarget]
    exact ⟨stage_version options p.vertex, stage_version options p.fragment⟩

/-- The version `300 es` in its other spelling. -/
theorem embedded_300_reads_back :
    parse "ES300" = .ok ⟨3, 0, true⟩ ∧ text ⟨3, 0, true⟩ = "300 es" ∧ parse (text ⟨3, 0, true⟩) = .ok ⟨3, 0, true⟩ :=
  have hparse : parse "ES300" = .ok ⟨3, 0, true⟩ := by decide +kernel
  ⟨hparse, by decide +kernel, (text_read_back_iff hparse).2.1.2 (by decide)⟩

/-- An embedded version that is read back as a desktop one. -/
theorem embedded_110_reads_back_as_desktop :
    parse "es110" = .ok ⟨1, 10, true⟩ ∧ text ⟨1, 10, true⟩ = "110" ∧ parse "110" = .ok ⟨1, 10, false⟩ := by
  decide +kernel

end Glsl.Version

end Shading
