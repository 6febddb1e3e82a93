import Mathlib.Data.Nat.Digits.Defs
import Mathlib.Tactic.Ring
import Shading.Proofs.Number.Bits
import Shading.Value.Literal

/-!
# Integer numerals

What an integer numeral denotes, said without the reader: the digits of a base are the first of the sixteen in
`digitChars`, a numeral counts in powers of its base, and the base is ten, or sixteen behind `0x`, or eight behind a plain
zero (`IntNumeral`). Reading a numeral gives its value while it fits 63 bits (`readInteger_of_intNumeral`), so as a
literal it denotes its value modulo `2 ^ 32` and is refused from `2 ^ 32` on (`parse_of_intNumeral`).
-/

namespace Shading

open List

variable {c d : Char}

theorem Number.isDigit_ne (h : c.isDigit = true) (hd : d.isDigit = false) : c ≠ d := by
  rintro rfl
  rw [h] at hd
  cases hd

namespace Value
open Number

/-- The digits in the order of their values. Behind nine, small and large letters mean the same. -/
def digitChars : List Char := ['0', '1', '2', '3', '4', '5', '6', '7', '8', '9', 'a', 'b', 'c', 'd', 'e', 'f']

def IsDigitOf (base : Nat) (c : Char) : Prop := c.toLower ∈ digitChars.take base

instance (base : Nat) (c : Char) : Decidable (IsDigitOf base c) :=
  inferInstanceAs (Decidable (c.toLower ∈ digitChars.take base))

def digitValue (c : Char) : Nat := digitChars.idxOf c.toLower

/-- The value of digits in a base, the last of them counting ones. -/
def digitsValue (base : Nat) (ds : List Char) : Nat := Nat.ofDigits base (ds.map digitValue).reverse

/-- The characters are an integer numeral with the value. -/
inductive IntNumeral : List Char → Nat → Prop
  | decimal {d : Char} {ds : List Char} (hd : d ≠ '0') (hds : ∀ c ∈ d :: ds, IsDigitOf 10 c) :
      IntNumeral (d :: ds) (digitsValue 10 (d :: ds))
  | octal {ds : List Char} (hds : ∀ c ∈ ds, IsDigitOf 8 c) : IntNumeral ('0' :: ds) (digitsValue 8 ds)
  | hexadecimal {x : Char} {ds : List Char} (hx : x = 'x' ∨ x = 'X') (hne : ds ≠ [])
      (hds : ∀ c ∈ ds, IsDigitOf 16 c) : IntNumeral ('0' :: x :: ds) (digitsValue 16 ds)

/-! ## Digits -/

theorem digitsValue_cons (base : Nat) (c : Char) (cs : List Char) :
    digitsValue base (c :: cs) = digitValue c * base ^ cs.length + digitsValue base cs := by
  rw [digitsValue, map_cons, reverse_cons, Nat.ofDigits_append, Nat.ofDigits_singleton, length_reverse,
    length_map, Nat.add_comm, Nat.mul_comm]
  rfl

def intBases : List Nat := [8, 10, 16]

variable {base n : Nat} {ds cs : List Char}

theorem pos_of_mem_intBases (h : base ∈ intBases) : 0 < base := by
  have hpos : ∀ b ∈ intBases, 0 < b := by decide
  exact hpos base h

theorem digitIn?_eq (hbase : base ∈ intBases) (c : Char) :
    digitIn? base c = if IsDigitOf base c then some (digitValue c) else none := by
  by_cases hascii : c.toNat < 128
  · have hall : ∀ b ∈ intBases, ∀ n < 128,
        digitIn? b (Char.ofNat n) = if IsDigitOf b (Char.ofNat n) then some (digitValue (Char.ofNat n)) else none := by
      decide +kernel
    have hc := hall base hbase c.toNat hascii
    rwa [Char.ofNat_toNat] at hc
  · have hbeyond : ∀ d : Char, d.toNat < 128 → ¬ c ≤ d := by
      intro d hd hcd
      have hle : c.toNat ≤ d.toNat := hcd
      omega
    have hdecimal : ¬ c.isDigit = true := by
      intro h
      have hrange : 48 ≤ c.toNat ∧ c.toNat ≤ 57 := by
        simpa [Char.isDigit, UInt32.le_iff_toNat_le] using h
      omega
    have hdigit : digit? c = none := by
      unfold digit?
      rw [if_neg hdecimal, if_neg (fun h => hbeyond 'z' (by decide) h.2),
        if_neg (fun h => hbeyond 'Z' (by decide) h.2)]
    have hnot : ¬ IsDigitOf base c := by
      intro hmem
      have hlower : c.toLower = c := dif_neg fun h => hbeyond 'Z' (by decide) h.2
      have hall : (digitChars.all fun d => decide (d.toNat < 128)) = true := by decide
      have hascii' := of_decide_eq_true (all_eq_true.1 hall _ (mem_of_mem_take hmem))
      rw [hlower] at hascii'
      exact hascii hascii'
    rw [digitIn?, hdigit, if_neg hnot]
    rfl

theorem digitIn?_ten (h : c.isDigit = true) : digitIn? 10 c = some (c.toNat - 48) := by
  have hrange : 48 ≤ c.toNat ∧ c.toNat ≤ 57 := by
    simpa [Char.isDigit, UInt32.le_iff_toNat_le] using h
  have hlt : c.toNat - 48 < 10 := by omega
  simp [digitIn?, digit?, h, hlt]

theorem isDigitOf_ten (h : c.isDigit = true) : IsDigitOf 10 c ∧ digitValue c = c.toNat - 48 := by
  have hdigit := digitIn?_ten h
  rw [digitIn?_eq (by decide)] at hdigit
  split at hdigit
  · next hten => exact ⟨hten, Option.some.inj hdigit⟩
  · cases hdigit

theorem IsDigitOf.ne (h : IsDigitOf base c) (hd : d.toLower ∉ digitChars) : c ≠ d := by
  rintro rfl
  exact hd (mem_of_mem_take h)

/-- Reading digits of the base gives their value, unless it needs more than 64 bits. -/
theorem readDigits_of_digits (hbase : base ∈ intBases) (hds : ∀ c ∈ ds, IsDigitOf base c) (hn : n < 2 ^ 64) :
    readDigits base n ds =
      if n * base ^ ds.length + digitsValue base ds < 2 ^ 64 then .ok (n * base ^ ds.length + digitsValue base ds)
      else .error .outOfRange := by
  induction ds generalizing n with
  | nil =>
    have hvalue : n * base ^ ([] : List Char).length + digitsValue base [] = n := by simp [digitsValue]
    rw [readDigits, hvalue, if_pos hn]
  | cons c cs ih =>
    have hc := hds c mem_cons_self
    have hvalue : n * base ^ (c :: cs).length + digitsValue base (c :: cs) =
        (n * base + digitValue c) * base ^ cs.length + digitsValue base cs := by
      rw [digitsValue_cons, length_cons, pow_succ]
      ring
    rw [readDigits, if_neg (hc.ne (by decide)), digitIn?_eq hbase, if_pos hc, hvalue]
    dsimp only
    rw [power_eq]
    split
    · next hlarge =>
      have hpos : 1 ≤ base ^ cs.length := Nat.one_le_pow _ _ (pos_of_mem_intBases hbase)
      have hle := Nat.mul_le_mul_left (n * base + digitValue c) hpos
      rw [if_neg (by omega)]
    · next hsmall => exact ih (fun d hd => hds d (mem_cons_of_mem c hd)) (by omega)

/-- A character that is no digit of the base is not read over. -/
theorem readDigits_malformed (hbase : base ∈ intBases) (hc : c ∈ ds) (hdigit : ¬ IsDigitOf base c) (hplain : '_' ∉ ds)
    (n : Nat) : ∃ why, readDigits base n ds = .error why := by
  induction ds generalizing n with
  | nil => cases hc
  | cons d ds ih =>
    rw [mem_cons, not_or] at hplain
    rw [readDigits, if_neg (Ne.symm hplain.1), digitIn?_eq hbase]
    by_cases hd : IsDigitOf base d
    · rw [if_pos hd]
      dsimp only
      split
      · exact ⟨_, rfl⟩
      · refine ih ?_ hplain.2 _
        rcases mem_cons.1 hc with rfl | hc
        · exact absurd hd hdigit
        · exact hc
    · rw [if_neg hd]
      exact ⟨_, rfl⟩

/-! ## Numerals -/

theorem basePrefix?_eq_none (hc : c.isDigit = true) (cs : List Char) : basePrefix? ('0' :: c :: cs) = none := by
  have hne : ∀ d : Char, d.isDigit = false → c ≠ d := fun d => isDigit_ne hc
  simp [basePrefix?, hne 'b' (by decide), hne 'B' (by decide), hne 'o' (by decide), hne 'O' (by decide),
    hne 'x' (by decide), hne 'X' (by decide)]

theorem integerBase_decimal (hd : d ≠ '0') (ds : List Char) : integerBase (d :: ds) = (10, d :: ds) := by
  have hmark : basePrefix? (d :: ds) = none := by
    unfold basePrefix?
    split
    · next heq => exact absurd (List.cons.inj heq).1 hd
    · rfl
  unfold integerBase
  rw [hmark]
  dsimp only
  split
  · next heq => exact absurd (List.cons.inj heq).1 hd
  · rfl

theorem integerBase_octal (hds : ∀ c ∈ ds, c.isDigit = true) : integerBase ('0' :: ds) = (8, ds) := by
  have hmark : basePrefix? ('0' :: ds) = none := by
    cases ds with
    | nil => rfl
    | cons c cs => exact basePrefix?_eq_none (hds c mem_cons_self) cs
  unfold integerBase
  rw [hmark]
  rfl

theorem integerBase_hexadecimal {x : Char} (hx : x = 'x' ∨ x = 'X') (hne : ds ≠ []) :
    integerBase ('0' :: x :: ds) = (16, ds) := by
  obtain ⟨d, ds, rfl⟩ := exists_cons_of_ne_nil hne
  rcases hx with rfl | rfl <;> rfl

theorem isDigit_of_isDigitOf (hbase : base ≤ 10) (h : IsDigitOf base c) : c.isDigit = true := by
  have hten : IsDigitOf 10 c := take_subset_take_left _ hbase h
  have hdigit := digitIn?_eq (by decide : 10 ∈ intBases) c
  rw [if_pos hten, digitIn?, Option.filter_eq_some_iff, decide_eq_true_eq] at hdigit
  obtain ⟨hdigit, hlt⟩ := hdigit
  -- The letters have values from ten on.
  by_contra hc
  rw [digit?, if_neg hc] at hdigit
  split at hdigit
  · next hletter =>
    have hlow : 97 ≤ c.toNat := hletter.1
    have hvalue := Option.some.inj hdigit
    omega
  · split at hdigit
    · next hletter =>
      have hlow : 65 ≤ c.toNat := hletter.1
      have hvalue := Option.some.inj hdigit
      omega
    · cases hdigit

theorem splitSign_of_digit (h : c.isDigit = true) (cs : List Char) :
    splitSign (c :: cs) = (false, c :: cs) := by
  unfold splitSign
  split
  · rename_i heq
    cases heq
    cases h
  · rename_i heq
    cases heq
    cases h
  · rfl

/-- What reading an integer comes to, once its sign, base and digits are known. -/
theorem readInteger_eq {body : List Char} {negative : Bool} (hsign : splitSign cs = (negative, body))
    (hne : body ≠ []) (hplain : '_' ∉ body) {digits : List Char} (hbase : integerBase body = (base, digits)) :
    readInteger cs = (readDigits base 0 digits).bind fun n =>
      if negative then if 2 ^ 63 < n then .error .outOfRange else .ok (-(n : ℤ))
      else if 2 ^ 63 ≤ n then .error .outOfRange else .ok (n : ℤ) := by
  have hempty : body.isEmpty = false := isEmpty_eq_false_iff.2 hne
  have hunder : body.contains '_' = false := by
    rw [contains_eq_mem, decide_eq_false_iff_not]
    exact hplain
  unfold readInteger
  rw [hsign]
  dsimp only
  rw [hbase, hempty, hunder]
  rfl

/-- A numeral names its base and holds digits of the base only. -/
theorem IntNumeral.parts (h : IntNumeral cs n) :
    ∃ base ds, base ∈ intBases ∧ integerBase cs = (base, ds) ∧ (∀ c ∈ ds, IsDigitOf base c) ∧ n = digitsValue base ds := by
  cases h with
  | decimal hd hds => exact ⟨10, _, by decide, integerBase_decimal hd _, hds, rfl⟩
  | octal hds =>
    have hdigits := fun c hc => isDigit_of_isDigitOf (by decide) (hds c hc)
    exact ⟨8, _, by decide, integerBase_octal hdigits, hds, rfl⟩
  | hexadecimal hx hne hds => exact ⟨16, _, by decide, integerBase_hexadecimal hx hne, hds, rfl⟩

/-- A numeral starts with a digit, and nothing separates its digits. -/
theorem IntNumeral.exists_cons (h : IntNumeral cs n) :
    ∃ c more, cs = c :: more ∧ c.isDigit = true ∧ '_' ∉ cs := by
  have hplain : ∀ {base : Nat} {ds : List Char}, (∀ c ∈ ds, IsDigitOf base c) → '_' ∉ ds := by
    intro base ds hds hmem
    exact (hds _ hmem).ne (by decide) rfl
  cases h with
  | @decimal d ds hd hds => exact ⟨d, ds, rfl, isDigit_of_isDigitOf le_rfl (hds d mem_cons_self), hplain hds⟩
  | @octal ds hds => exact ⟨'0', ds, rfl, rfl, by simpa using hplain hds⟩
  | @hexadecimal x ds hx _ hds =>
    refine ⟨'0', x :: ds, rfl, rfl, ?_⟩
    rcases hx with rfl | rfl <;> simpa using hplain hds

/-- A numeral is read as its value, unless it needs more than 63 bits. -/
theorem readInteger_of_intNumeral (h : IntNumeral cs n) :
    readInteger cs = if n < 2 ^ 63 then .ok (n : ℤ) else .error .outOfRange := by
  obtain ⟨base, ds, hmem, hbase, hds, rfl⟩ := h.parts
  obtain ⟨c, more, rfl, hc, hplain⟩ := h.exists_cons
  rw [readInteger_eq (splitSign_of_digit hc more) (cons_ne_nil _ _) hplain hbase,
    readDigits_of_digits hmem hds (by norm_num), Nat.zero_mul, Nat.zero_add]
  by_cases hlarge : digitsValue base ds < 2 ^ 64
  · rw [if_pos hlarge, Except.bind, if_neg (by decide)]
    split
    · rw [if_neg (by omega)]
    · rw [if_pos (by omega)]
  · rw [if_neg hlarge, if_neg (by omega)]
    rfl

theorem looksLikeFloat_of_digits (hds : ∀ c ∈ ds, c.isDigit = true) : looksLikeFloat ds = false := by
  unfold looksLikeFloat
  rw [any_eq_false.2, Bool.false_and]
  intro c hc
  have hne : ∀ d : Char, d.isDigit = false → c ≠ d := fun d => isDigit_ne (hds c hc)
  simp [hne '.' (by decide), hne 'e' (by decide), hne 'E' (by decide)]

theorem looksLikeFloat_of_intNumeral (h : IntNumeral cs n) : looksLikeFloat cs = false := by
  cases h with
  | decimal hd hds => exact looksLikeFloat_of_digits fun c hc => isDigit_of_isDigitOf le_rfl (hds c hc)
  | octal hds =>
    have hdigits := fun c hc => isDigit_of_isDigitOf (by decide) (hds c hc)
    exact looksLikeFloat_of_digits (forall_mem_cons.2 ⟨rfl, hdigits⟩)
  | hexadecimal hx _ _ => rcases hx with rfl | rfl <;> exact Bool.and_false _

theorem ofList_ne_of_head (h : c ≠ d) (cs ds : List Char) : String.ofList (c :: cs) ≠ String.ofList (d :: ds) := by
  intro heq
  have hlist := congrArg String.toList heq
  rw [String.toList_ofList, String.toList_ofList] at hlist
  exact h (List.cons.inj hlist).1

/-- A text that does not start as they do is no truth value. -/
theorem parse_of_head (ht : c ≠ 't') (hf : c ≠ 'f') (cs : List Char) :
    parse (String.ofList (c :: cs)) = if looksLikeFloat (c :: cs) then
      match readFloat (c :: cs) with
      | .ok f => .ok (float f)
      | .error why => .error (.badFloat (String.ofList (c :: cs)) why)
    else
      match readInteger (c :: cs) with
      | .ok i => if (2 ^ 32 : ℤ) ≤ i then .error (.intTooLarge (String.ofList (c :: cs))) else .ok (int (Int32.ofInt i))
      | .error why => .error (.badInt (String.ofList (c :: cs)) why) := by
  rw [parse, if_neg (ofList_ne_of_head ht cs ['r', 'u', 'e']), if_neg (ofList_ne_of_head hf cs ['a', 'l', 's', 'e']),
    String.toList_ofList]
  rfl

/-- As a literal a numeral denotes its value modulo `2 ^ 32`, and from `2 ^ 32` on it is refused. -/
theorem parse_of_intNumeral (h : IntNumeral cs n) :
    parse (String.ofList cs) =
      if n < 2 ^ 32 then .ok (int (Int32.ofInt n))
      else .error (if n < 2 ^ 63 then .intTooLarge (String.ofList cs) else .badInt (String.ofList cs) .outOfRange) := by
  have hread := readInteger_of_intNumeral h
  have hlooks := looksLikeFloat_of_intNumeral h
  obtain ⟨c, more, rfl, hc, -⟩ := h.exists_cons
  rw [parse_of_head (isDigit_ne hc (by decide)) (isDigit_ne hc (by decide)), hlooks, if_neg (by decide), hread]
  by_cases hlarge : n < 2 ^ 63
  · rw [if_pos hlarge, if_pos hlarge]
    dsimp only
    split
    · rw [if_neg (by omega)]
    · rw [if_pos (by omega)]
  · rw [if_neg hlarge, if_neg hlarge, if_neg (by omega)]

end Value

end Shading
