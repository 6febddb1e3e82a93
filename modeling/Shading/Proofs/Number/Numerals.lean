import Mathlib.Algebra.Order.Field.Rat
import Mathlib.Tactic.FieldSimp
import Mathlib.Tactic.Linarith
import Mathlib.Tactic.NormNum
import Mathlib.Tactic.Positivity
import Mathlib.Tactic.Ring
import Shading.Proofs.Number.Bits
import Shading.Proofs.Number.IntegerNumerals
import Shading.Proofs.Number.Shortest

/-!
# The texts of numbers

A numeral has digits in front of the point, perhaps digits behind it, and perhaps an exponent with its sign. The text
of a constant that is a number is a numeral with or without a minus sign (`exists_numeral`), and reading the numeral gives
the constant or, behind the sign, what its negation is the constant of.
-/

namespace Shading.Number

open List

/-- One or more decimal digits. -/
structure Digits where
  chars : List Char
  ne_nil : chars ≠ []
  isDigit : ∀ c ∈ chars, c.isDigit = true

namespace Digits

def value (ds : Digits) : Nat := Nat.ofDigitChars 10 ds.chars 0

def ofNat (n : Nat) : Digits where
  chars := Nat.toDigits 10 n
  ne_nil := Nat.toDigits_ne_nil
  isDigit _ := Nat.isDigit_of_mem_toDigits (by decide) (by decide)

theorem value_ofNat (n : Nat) : (ofNat n).value = n := Nat.ofDigitChars_ten_toDigits

def zero : Digits where
  chars := ['0']
  ne_nil := cons_ne_nil _ _
  isDigit c hc := by rw [mem_singleton.1 hc]; rfl

end Digits

/-- A number as it is written without a sign. -/
structure Numeral where
  whole : Digits
  fraction : Option Digits := none
  /-- Whether the exponent is negative, and its digits. -/
  exponent : Option (Bool × Digits) := none

namespace Numeral

def fractionDigits (n : Numeral) : List Char := n.fraction.elim [] Digits.chars

def fractionChars (n : Numeral) : List Char := n.fraction.elim [] fun ds => '.' :: ds.chars

def exponentChars (n : Numeral) : List Char :=
  n.exponent.elim [] fun e => 'e' :: (if e.1 then '-' else '+') :: e.2.chars

def chars (n : Numeral) : List Char := n.whole.chars ++ (n.fractionChars ++ n.exponentChars)

/-- All digits in front of the exponent as one number. -/
def mantissa (n : Numeral) : Nat := Nat.ofDigitChars 10 n.fractionDigits n.whole.value

def exponentValue (n : Numeral) : ℤ := n.exponent.elim 0 fun e => if e.1 then -(e.2.value : ℤ) else e.2.value

/-- The power of ten that the mantissa counts. -/
def scale (n : Numeral) : ℤ := n.exponentValue - n.fractionDigits.length

def value (n : Numeral) : ℚ := n.mantissa * 10 ^ n.scale

/-- The numeral is written like a double. -/
def Marked (n : Numeral) : Prop := n.fraction.isSome = true ∨ n.exponent.isSome = true

/-- The exponent is so small that reading does not cut it. -/
def Small (n : Numeral) : Prop := ∀ e ∈ n.exponent, e.2.value < 100000

end Numeral

def isNumeralChar (c : Char) : Bool := c.isDigit || c == '.' || c == 'e' || c == '+' || c == '-'

variable {n : Numeral} {c : Char}

theorem Numeral.isNumeralChar_of_mem (h : c ∈ n.chars) : isNumeralChar c = true := by
  have hdigits : ∀ {ds : Digits}, c ∈ ds.chars → isNumeralChar c = true := fun {ds} hc => by
    simp [isNumeralChar, ds.isDigit c hc]
  have hmark : ∀ {d : Char}, isNumeralChar d = true → c = d → isNumeralChar c = true := fun hd he => he ▸ hd
  unfold chars fractionChars exponentChars at h
  rcases mem_append.1 h with h | h
  · exact hdigits h
  rcases mem_append.1 h with h | h
  · cases hf : n.fraction with
    | none => simp [hf] at h
    | some ds =>
      rw [hf] at h
      rcases mem_cons.1 h with h | h
      · exact hmark (by decide) h
      · exact hdigits h
  · cases he : n.exponent with
    | none => simp [he] at h
    | some e =>
      rw [he] at h
      rcases mem_cons.1 h with h | h
      · exact hmark (by decide) h
      rcases mem_cons.1 h with h | h
      · exact hmark (by split <;> decide) h
      · exact hdigits h

theorem Numeral.not_mem_chars (h : isNumeralChar c = false) : c ∉ n.chars := by
  intro hc
  rw [isNumeralChar_of_mem hc] at h
  cases h

/-- A numeral starts with a digit. -/
theorem Numeral.exists_chars_eq (n : Numeral) : ∃ c cs, n.chars = c :: cs ∧ c.isDigit = true := by
  obtain ⟨c, cs, hc⟩ := exists_cons_of_ne_nil n.whole.ne_nil
  refine ⟨c, cs ++ (n.fractionChars ++ n.exponentChars), ?_, n.whole.isDigit c (by rw [hc]; exact mem_cons_self)⟩
  rw [chars, hc]
  rfl

end Shading.Number

namespace Shading.Value

open List
open Number

variable {n : Numeral} {c : Char} {ds : List Char} {bits : Nat}

/-! ## Reading numerals -/

/-- Digits in front of other characters. -/
theorem readMantissa_digits (point : Bool) (m : Mantissa) {rest : List Char} (h : ∀ c ∈ ds, c.isDigit = true) :
    readMantissa 10 point m (ds ++ rest) = readMantissa 10 point
      { m with
        value := Nat.ofDigitChars 10 ds m.value
        fraction := if point then m.fraction + ds.length else m.fraction
        anyDigit := m.anyDigit || !ds.isEmpty } rest := by
  induction ds generalizing m with
  | nil => simp
  | cons c cs ih =>
    have hc := h c mem_cons_self
    rw [cons_append, readMantissa, if_neg (isDigit_ne hc (by decide)), if_neg (isDigit_ne hc (by decide)),
      digitIn?_ten hc]
    dsimp only
    rw [ih _ fun d hd => h d (mem_cons_of_mem c hd)]
    congr 1
    have hvalue : m.value * 10 + (c.toNat - 48) = 10 * m.value + (c.toNat - '0'.toNat) := by
      rw [Nat.mul_comm]
      rfl
    rw [Nat.ofDigitChars_cons, hvalue]
    cases point
    · simp
    · simp [Nat.add_assoc, Nat.add_comm 1]

theorem le_ofDigitChars (ds : List Char) (e : Nat) : e ≤ Nat.ofDigitChars 10 ds e := by
  rw [Nat.ofDigitChars_eq_ofDigitChars_zero]
  have hpos : 1 ≤ 10 ^ ds.length := Nat.one_le_pow _ _ (by decide)
  calc e = 1 * e := (Nat.one_mul e).symm
    _ ≤ 10 ^ ds.length * e := Nat.mul_le_mul_right e hpos
    _ ≤ _ := Nat.le_add_right _ _

theorem readExponentDigits_digits (h : ∀ c ∈ ds, c.isDigit = true) {e : Nat}
    (hsmall : Nat.ofDigitChars 10 ds e < 100000) :
    readExponentDigits e ds = (Nat.ofDigitChars 10 ds e, []) := by
  induction ds generalizing e with
  | nil => rfl
  | cons c cs ih =>
    have hc := h c mem_cons_self
    rw [Nat.ofDigitChars_cons] at hsmall ⊢
    have hle := le_ofDigitChars cs (10 * e + (c.toNat - '0'.toNat))
    rw [readExponentDigits, if_neg (isDigit_ne hc (by decide)), digitIn?_ten hc]
    dsimp only
    have hvalue : e * 10 + (c.toNat - 48) = 10 * e + (c.toNat - '0'.toNat) := by
      rw [Nat.mul_comm]
      rfl
    rw [if_pos (by omega), hvalue]
    exact ih (fun d hd => h d (mem_cons_of_mem c hd)) hsmall

/-- The mantissa of a numeral ends where the exponent begins. -/
theorem readMantissa_chars (n : Numeral) :
    readMantissa 10 false {} n.chars = ⟨n.mantissa, n.fractionDigits.length, true, n.exponentChars⟩ := by
  have hwhole : n.whole.chars.isEmpty = false := by
    rw [isEmpty_eq_false_iff]
    exact n.whole.ne_nil
  have hstop : ∀ point m, readMantissa 10 point m n.exponentChars = { m with rest := n.exponentChars } := by
    intro point m
    unfold Numeral.exponentChars
    cases n.exponent with
    | none => rfl
    | some e =>
      rw [Option.elim_some, readMantissa, if_neg (by decide), if_neg (by decide)]
      rfl
  rw [Numeral.chars, readMantissa_digits false _ n.whole.isDigit]
  unfold Numeral.fractionChars Numeral.mantissa Numeral.fractionDigits
  cases n.fraction with
  | none =>
    rw [Option.elim_none, nil_append, hstop]
    simp [hwhole, Digits.value]
  | some ds =>
    rw [Option.elim_some, cons_append, readMantissa, if_neg (by decide), if_pos rfl]
    rw [if_neg (by decide), readMantissa_digits true _ ds.isDigit, hstop]
    simp [hwhole, Digits.value]

theorem readExponent?_digits (negative : Bool) {ds : Digits} (h : ds.value < 100000) :
    readExponent? ((if negative then '-' else '+') :: ds.chars) =
      some (if negative then -(ds.value : ℤ) else ds.value, []) := by
  obtain ⟨c, cs, hds⟩ := exists_cons_of_ne_nil ds.ne_nil
  have hsign : splitSign ((if negative then '-' else '+') :: ds.chars) = (negative, ds.chars) := by
    cases negative <;> rfl
  have hread := readExponentDigits_digits ds.isDigit h
  have hc := ds.isDigit c (by rw [hds]; exact mem_cons_self)
  unfold readExponent?
  rw [hsign]
  dsimp only
  rw [hds] at hread ⊢
  dsimp only
  rw [if_pos hc, hread]
  unfold Digits.value
  rw [hds]

/-- Reading a numeral gives its parts. -/
theorem readFloatNumeral?_chars (h : n.Small) :
    readFloatNumeral? n.chars = some ⟨false, n.mantissa, 10, n.scale⟩ := by
  obtain ⟨c, cs, hchars, hc⟩ := n.exists_chars_eq
  have hsign : splitSign n.chars = (false, n.chars) := by
    rw [hchars]
    exact splitSign_of_digit hc cs
  have hhex : splitHex n.chars = (false, n.chars) := by
    unfold splitHex
    split
    · rename_i x d ds heq
      have hx : isNumeralChar x = true := by
        apply Numeral.isNumeralChar_of_mem (n := n)
        rw [heq]
        simp
      rw [if_neg (by rintro (rfl | rfl) <;> cases hx), heq]
    · rfl
  have hunder : n.chars.contains '_' = false := by
    rw [contains_eq_mem, decide_eq_false_iff_not]
    exact Numeral.not_mem_chars (by decide)
  have hexponent : (if startsExponent false n.exponentChars = true then readExponent? (n.exponentChars.drop 1)
      else some (0, n.exponentChars)) = some (n.exponentValue, []) := by
    unfold Numeral.Small at h
    unfold Numeral.exponentChars Numeral.exponentValue
    cases he : n.exponent with
    | none => rfl
    | some e => exact readExponent?_digits e.1 (h e (by rw [he]; rfl))
  unfold readFloatNumeral?
  rw [hsign]
  dsimp only
  rw [hhex]
  simp only [Bool.false_eq_true, if_false]
  rw [readMantissa_chars]
  dsimp only
  by_cases hmark : startsExponent false n.exponentChars = true
  · rw [if_pos hmark] at hexponent ⊢
    rw [hexponent, hunder]
    rfl
  · rw [if_neg hmark] at hexponent ⊢
    rw [hexponent, hunder]
    rfl

end Shading.Value

namespace Shading.Number

open List

/-! ## Layouts -/

theorem trimZeros_append (cs : List Char) : ∃ k, cs = trimZeros cs ++ List.replicate k '0' := by
  refine ⟨(cs.reverse.takeWhile (· == '0')).length, ?_⟩
  have hzeros : cs.reverse.takeWhile (· == '0') = List.replicate (cs.reverse.takeWhile (· == '0')).length '0' := by
    rw [eq_replicate_iff]
    exact ⟨rfl, fun c hc => by simpa using all_eq_true.1 all_takeWhile c hc⟩
  have hparts := congrArg List.reverse (takeWhile_append_dropWhile (p := (· == '0')) (l := cs.reverse))
  rw [reverse_append, reverse_reverse, hzeros, reverse_replicate] at hparts
  exact hparts.symm

namespace Digits

/-- Digits with zeros in front of them. -/
def padded (k : Nat) (ds : Digits) : Digits where
  chars := List.replicate k '0' ++ ds.chars
  ne_nil h := ds.ne_nil (append_eq_nil_iff.1 h).2
  isDigit c h := by
    rcases mem_append.1 h with h | h
    · rw [eq_of_mem_replicate h]
      rfl
    · exact ds.isDigit c h

/-- Digits with zeros behind them. -/
def extended (ds : Digits) (k : Nat) : Digits where
  chars := ds.chars ++ List.replicate k '0'
  ne_nil h := ds.ne_nil (append_eq_nil_iff.1 h).1
  isDigit c h := by
    rcases mem_append.1 h with h | h
    · exact ds.isDigit c h
    · rw [eq_of_mem_replicate h]
      rfl

def front (ds : Digits) (k : Nat) : Digits where
  chars := ds.chars.take (k + 1)
  ne_nil h := by
    rcases take_eq_nil_iff.1 h with h | h
    · cases h
    · exact ds.ne_nil h
  isDigit c h := ds.isDigit c (mem_of_mem_take h)

/-- The digits behind the first, if there are any. -/
def back? (ds : Digits) (k : Nat) : Option Digits :=
  if h : ds.chars.drop (k + 1) = [] then none
  else some ⟨ds.chars.drop (k + 1), h, fun c hc => ds.isDigit c (mem_of_mem_drop hc)⟩

theorem elim_back? (ds : Digits) (k : Nat) : (ds.back? k).elim [] chars = ds.chars.drop (k + 1) := by
  unfold back?
  split
  · rename_i h
    rw [h]
    rfl
  · rfl

theorem elim_point_back? (ds : Digits) (k : Nat) :
    (ds.back? k).elim [] (fun ds => '.' :: ds.chars) =
      if (ds.chars.drop (k + 1)).isEmpty = true then [] else '.' :: ds.chars.drop (k + 1) := by
  unfold back?
  split
  · rename_i h
    rw [h]
    rfl
  · rename_i h
    rw [if_neg (by rwa [List.isEmpty_iff])]
    rfl

theorem value_padded (k : Nat) (ds : Digits) : (ds.padded k).value = ds.value := by
  unfold value padded
  rw [Nat.ofDigitChars_append, Nat.ofDigitChars_replicate_zero, Nat.mul_zero]

end Digits

theorem Numeral.mantissa_eq (n : Numeral) :
    n.mantissa = Nat.ofDigitChars 10 (n.whole.chars ++ n.fractionDigits) 0 := by
  rw [Nat.ofDigitChars_append]
  rfl

/-- The layout of a decimal keeps its value, and the exponent is that of its first digit. -/
theorem Decimal.exists_layout {d : Decimal} (h : 0 < d.digits) :
    ∃ (ds : Digits) (E : ℤ), d.layout = (ds.chars, E) ∧ d.value = ds.value * 10 ^ (E + 1 - ds.chars.length) ∧
      10 ^ E ≤ d.value ∧ d.value < 10 ^ (E + 1) := by
  obtain ⟨k, hk⟩ := trimZeros_append (Nat.toDigits 10 d.digits)
  have hvalue : d.digits = 10 ^ k * Nat.ofDigitChars 10 (trimZeros (Nat.toDigits 10 d.digits)) 0 := by
    rw [← Nat.ofDigitChars_replicate_zero, ← Nat.ofDigitChars_append, ← hk, Nat.ofDigitChars_ten_toDigits]
  have hlength := congrArg List.length hk
  rw [length_append, length_replicate] at hlength
  have hcount : (Nat.toDigits 10 d.digits).length = digitCount d.digits := by
    rw [digitCount, if_neg h.ne']
  have hpos := RoundingInterval.digitCount_pos h
  obtain ⟨ds, hds⟩ : ∃ ds : Digits, ds.chars = trimZeros (Nat.toDigits 10 d.digits) := by
    refine ⟨⟨trimZeros (Nat.toDigits 10 d.digits), ?_, ?_⟩, rfl⟩
    · intro hnil
      rw [hnil, Nat.ofDigitChars_nil] at hvalue
      omega
    · intro c hc
      apply Nat.isDigit_of_mem_toDigits (b := 10) (n := d.digits) (by decide) (by decide)
      rw [hk]
      exact mem_append_left _ hc
  rw [← hds] at hvalue hlength
  refine ⟨ds, (digitCount d.digits : ℤ) - 1 + d.exponent, ?_, ?_, ?_, ?_⟩
  · rw [Decimal.layout, hcount, hds]
  · have hexp : (digitCount d.digits : ℤ) - 1 + d.exponent + 1 - ds.chars.length = k + d.exponent := by omega
    rw [hexp, zpow_add₀ (by norm_num), zpow_natCast, Decimal.value, hvalue, Digits.value]
    push_cast
    ring
  · rw [Decimal.value, zpow_add₀ (by norm_num)]
    apply mul_le_mul_of_nonneg_right _ (ten_zpow_pos d.exponent).le
    have hle := RoundingInterval.pow_digitCount_le h
    have hexp : (digitCount d.digits : ℤ) - 1 = (digitCount d.digits - 1 : Nat) := by omega
    rw [hexp, zpow_natCast]
    exact_mod_cast hle
  · have hexp : (digitCount d.digits : ℤ) - 1 + d.exponent + 1 = digitCount d.digits + d.exponent := by omega
    rw [Decimal.value, hexp, zpow_add₀ (by norm_num), zpow_natCast]
    apply mul_lt_mul_of_pos_right _ (ten_zpow_pos d.exponent)
    exact_mod_cast RoundingInterval.lt_pow_digitCount d.digits

/-- Positional notation is a numeral of the same value. -/
theorem exists_numeral_positional (ds : Digits) (E : ℤ) :
    ∃ n : Numeral, n.chars = positional ds.chars E ∧ n.exponent = none ∧
      n.value = ds.value * 10 ^ (E + 1 - ds.chars.length) := by
  unfold positional
  split
  · rename_i hneg
    refine ⟨{ whole := .zero, fraction := some (ds.padded (-E - 1).toNat) }, ?_, rfl, ?_⟩
    · show '0' :: '.' :: (List.replicate (-E - 1).toNat '0' ++ ds.chars) ++ [] = _
      rw [append_nil]
      rfl
    have hmantissa : Numeral.mantissa { whole := .zero, fraction := some (ds.padded (-E - 1).toNat) } = ds.value :=
      ds.value_padded _
    have hscale : Numeral.scale { whole := .zero, fraction := some (ds.padded (-E - 1).toNat) } =
        E + 1 - ds.chars.length := by
      simp only [Numeral.scale, Numeral.exponentValue, Numeral.fractionDigits, Digits.padded, Option.elim_none,
        Option.elim_some, length_append, length_replicate]
      omega
    rw [Numeral.value, hmantissa, hscale]
  · rename_i hnonneg
    dsimp only
    let n : Numeral := { whole := (ds.front E.toNat).extended (E.toNat + 1 - ds.chars.length), fraction := ds.back? E.toNat }
    refine ⟨n, ?_, rfl, ?_⟩
    · rw [← ds.elim_point_back?]
      show ds.chars.take (E.toNat + 1) ++ List.replicate (E.toNat + 1 - ds.chars.length) '0' ++
        ((ds.back? E.toNat).elim [] (fun ds => '.' :: ds.chars) ++ []) = _
      rw [append_nil]
    · have hfraction : n.fractionDigits = ds.chars.drop (E.toNat + 1) := ds.elim_back? E.toNat
      have hmantissa : n.mantissa = 10 ^ (E.toNat + 1 - ds.chars.length) * ds.value := by
        rw [n.mantissa_eq, hfraction]
        show Nat.ofDigitChars 10 (ds.chars.take (E.toNat + 1) ++ List.replicate (E.toNat + 1 - ds.chars.length) '0' ++
          ds.chars.drop (E.toNat + 1)) 0 = _
        rcases Nat.le_total ds.chars.length (E.toNat + 1) with hle | hge
        · rw [take_of_length_le hle, drop_eq_nil_of_le hle, append_nil, Nat.ofDigitChars_append,
            Nat.ofDigitChars_replicate_zero]
          rfl
        · rw [Nat.sub_eq_zero_of_le hge, replicate_zero, append_nil, take_append_drop, pow_zero,
            Nat.one_mul]
          rfl
      have hscale : n.scale = -(ds.chars.length - (E.toNat + 1) : Nat) := by
        rw [Numeral.scale, hfraction, length_drop]
        exact zero_sub _
      rw [Numeral.value, hmantissa, hscale]
      push_cast
      rw [mul_comm (10 ^ _ : ℚ), mul_assoc, ← zpow_natCast, ← zpow_add₀ (by norm_num)]
      congr 2
      omega

/-- Scientific notation is a numeral of the same value. -/
theorem exists_numeral_scientific (fmt : FloatFormat) (ds : Digits) (E : ℤ) :
    ∃ n : Numeral, n.chars = fmt.scientific ds.chars E ∧ (∀ e ∈ n.exponent, e.2.value = E.natAbs) ∧
      n.value = ds.value * 10 ^ (E + 1 - ds.chars.length) := by
  let ns := Digits.padded (fmt.minExponentDigits - (Nat.toDigits 10 E.natAbs).length) (.ofNat E.natAbs)
  have hns : ns.value = E.natAbs := by rw [Digits.value_padded, Digits.value_ofNat]
  let n : Numeral := { whole := ds.front 0, fraction := ds.back? 0, exponent := some (decide (E < 0), ns) }
  have hfraction : n.fractionDigits = ds.chars.drop 1 := ds.elim_back? 0
  refine ⟨n, ?_, ?_, ?_⟩
  · unfold FloatFormat.scientific
    dsimp only
    rw [← ds.elim_point_back? 0]
    show ds.chars.take 1 ++ ((ds.back? 0).elim [] (fun ds => '.' :: ds.chars) ++
      'e' :: (if decide (E < 0) = true then '-' else '+') :: ns.chars) = _
    simp only [decide_eq_true_eq, append_assoc, cons_append, nil_append]
    rfl
  · intro e he
    cases he
    exact hns
  · have hmantissa : n.mantissa = ds.value := by
      rw [n.mantissa_eq, hfraction]
      show Nat.ofDigitChars 10 (ds.chars.take 1 ++ ds.chars.drop 1) 0 = _
      rw [take_append_drop]
      rfl
    have hlength : 0 < ds.chars.length := length_pos_iff.2 ds.ne_nil
    have hexponent : n.exponentValue = E := by
      show (if decide (E < 0) = true then -(ns.value : ℤ) else ns.value) = E
      rw [hns]
      simp only [decide_eq_true_eq]
      split <;> omega
    have hscale : n.scale = E + 1 - ds.chars.length := by
      rw [Numeral.scale, hfraction, hexponent, length_drop]
      omega
    rw [Numeral.value, hmantissa, hscale]

/-! ## Doubles -/

theorem exponent_le_of_finite (h : bits < infinityBits) : (Binary.ofMagnitudeBits bits).exponent ≤ 971 := by
  rw [infinityBits_eq] at h
  rw [Binary.ofMagnitudeBits_eq, Binary.leastExponent]
  split
  · dsimp only
    omega
  · dsimp only
    omega

/-- What rounds to a finite double is neither large nor small. -/
theorem RoundsTo.bounds (hpos : 0 < bits) (hfinite : bits < infinityBits) {x : ℚ}
    (h : (Binary.ofMagnitudeBits bits).RoundsTo x) : (10 : ℚ) ^ (-1075 : ℤ) ≤ x ∧ x < 10 ^ (1024 : ℤ) := by
  have hb := Binary.canonical_ofMagnitudeBits hpos
  have hexponent := exponent_le_of_finite hfinite
  generalize Binary.ofMagnitudeBits bits = b at *
  have hunit := two_zpow_pos b.exponent
  obtain ⟨hlow, hhigh, -⟩ := h.near
  rw [le_div_iff₀ hunit] at hlow
  rw [div_le_iff₀ hunit] at hhigh
  have hpositive : (1 : ℚ) ≤ b.mantissa := by exact_mod_cast hb.pos
  have hmantissa : (b.mantissa : ℚ) + 1 ≤ 2 ^ 53 := by exact_mod_cast hb.mantissa_lt
  constructor
  · calc (10 : ℚ) ^ (-1075 : ℤ) ≤ 2 ^ (-1075 : ℤ) := by
          rw [zpow_neg, zpow_neg]
          exact inv_anti₀ (two_zpow_pos 1075) (zpow_le_zpow_left₀ (by norm_num) (by norm_num) (by norm_num))
      _ = 1 / 2 * 2 ^ (-1074 : ℤ) := by
          rw [show (-1074 : ℤ) = -1075 + 1 from rfl, zpow_add_one₀ (by norm_num)]
          ring
      _ ≤ 1 / 2 * 2 ^ b.exponent :=
          mul_le_mul_of_nonneg_left (zpow_le_zpow_right₀ (by norm_num) hb.least_le) (by norm_num)
      _ ≤ (b.mantissa - 1 / 2) * 2 ^ b.exponent := by
          apply mul_le_mul_of_nonneg_right _ hunit.le
          linarith
      _ ≤ x := hlow
  · calc x ≤ (b.mantissa + 1 / 2) * 2 ^ b.exponent := hhigh
      _ < 2 ^ 53 * 2 ^ b.exponent := by
          apply mul_lt_mul_of_pos_right _ hunit
          linarith
      _ ≤ 2 ^ 53 * 2 ^ (971 : ℤ) :=
          mul_le_mul_of_nonneg_left (zpow_le_zpow_right₀ (by norm_num) hexponent) (by positivity)
      _ = 2 ^ (1024 : ℤ) := by
          rw [← zpow_natCast, ← zpow_add₀ (by norm_num)]
          rfl
      _ ≤ 10 ^ (1024 : ℤ) := zpow_le_zpow_left₀ (by norm_num) (by norm_num) (by norm_num)

/-- The text of a positive magnitude is a numeral that rounds to it. -/
theorem exists_numeral_magnitude (fmt : FloatFormat) (hpos : 0 < bits) (hfinite : bits < infinityBits) :
    ∃ n : Numeral, n.chars = fmt.magnitude bits ∧ n.Small ∧ (Binary.ofMagnitudeBits bits).RoundsTo n.value := by
  have hb := Binary.canonical_ofMagnitudeBits hpos
  have hrounds := roundsTo_shortestDecimal hb
  have hdigits : 0 < (shortestDecimal (Binary.ofMagnitudeBits bits)).digits := by
    by_contra hzero
    have hvalue := hrounds.pos hb
    rw [Decimal.value, Nat.eq_zero_of_not_pos hzero, Nat.cast_zero, zero_mul] at hvalue
    exact lt_irrefl _ hvalue
  obtain ⟨ds, E, hlayout, hvalue, hlow, hhigh⟩ := Decimal.exists_layout hdigits
  obtain ⟨hleast, hgreatest⟩ := RoundsTo.bounds hpos hfinite hrounds
  have hsmall : E.natAbs < 100000 := by
    have hE : E < 1024 := (zpow_lt_zpow_iff_right₀ (by norm_num)).1 (hlow.trans_lt hgreatest)
    have hE' : -1075 < E + 1 := (zpow_lt_zpow_iff_right₀ (by norm_num)).1 (hleast.trans_lt hhigh)
    omega
  rw [hvalue] at hrounds
  unfold FloatFormat.magnitude
  rw [if_neg hpos.ne', hlayout]
  dsimp only
  split
  · obtain ⟨n, hchars, hexponent, hn⟩ := exists_numeral_scientific fmt ds E
    refine ⟨n, hchars, fun e he => ?_, by rwa [hn]⟩
    rwa [hexponent e he]
  · obtain ⟨n, hchars, hexponent, hn⟩ := exists_numeral_positional ds E
    refine ⟨n, hchars, fun e he => ?_, by rwa [hn]⟩
    rw [hexponent] at he
    cases he

end Shading.Number

namespace Shading.Value

open List
open Number

variable {n : Numeral} {c : Char} {bits : Nat}

/-- A numeral denotes the double that its value rounds to. -/
theorem magnitude_of_roundsTo (hpos : 0 < bits) (h : (Binary.ofMagnitudeBits bits).RoundsTo n.value) :
    FloatNumeral.magnitude ⟨false, n.mantissa, 10, n.scale⟩ = bits := by
  have hvalue : n.value = (n.mantissa * power 10 n.scale.toNat : Nat) / (power 10 (-n.scale).toNat : Nat) := by
    rw [Numeral.value, zpow_eq_div (by norm_num)]
    simp only [power_eq]
    push_cast
    ring
  rw [hvalue] at h
  unfold FloatNumeral.magnitude
  rw [roundQuotient_eq (Binary.canonical_ofMagnitudeBits hpos) (power_pos (by decide) _) h,
    Binary.magnitudeBits_ofMagnitudeBits]

theorem any_mark_iff (n : Numeral) : (n.chars.any fun c => c == '.' || c == 'e') = true ↔ n.Marked := by
  have hdigits : ∀ ds : Digits, (ds.chars.any fun c => c == '.' || c == 'e') = false := by
    intro ds
    rw [any_eq_false]
    intro c hc
    have hdigit := ds.isDigit c hc
    simp [isDigit_ne hdigit (d := '.') (by decide), isDigit_ne hdigit (d := 'e') (by decide)]
  unfold Numeral.chars Numeral.fractionChars Numeral.exponentChars Numeral.Marked
  rw [any_append, any_append, hdigits]
  cases n.fraction <;> cases n.exponent <;> simp

/-- A capital mark makes no difference, because numerals have none. -/
theorem any_mark_eq (n : Numeral) : (n.chars.any fun c => c == '.' || c == 'e' || c == 'E') =
    n.chars.any fun c => c == '.' || c == 'e' := by
  rw [Bool.eq_iff_iff, any_eq_true, any_eq_true]
  constructor
  · rintro ⟨c, hc, hmark⟩
    refine ⟨c, hc, ?_⟩
    rw [Bool.or_eq_true] at hmark
    rcases hmark with hmark | hmark
    · exact hmark
    · rw [beq_iff_eq] at hmark
      exact absurd (hmark ▸ hc) (Numeral.not_mem_chars (by decide))
  · rintro ⟨c, hc, hmark⟩
    exact ⟨c, hc, by rw [hmark, Bool.true_or]⟩

theorem looksLikeFloat_chars (n : Numeral) : looksLikeFloat n.chars = true ↔ n.Marked := by
  rw [← any_mark_iff, ← any_mark_eq]
  unfold looksLikeFloat
  split
  · rename_i c cs heq
    have hc : isNumeralChar c = true := by
      apply Numeral.isNumeralChar_of_mem (n := n)
      rw [heq]
      simp
    have hx : (c == 'x' || c == 'X') = false := by
      rw [Bool.or_eq_false_iff, beq_eq_false_iff_ne, beq_eq_false_iff_ne]
      constructor <;> rintro rfl <;> cases hc
    rw [hx, Bool.not_false, Bool.and_true]
  · rw [Bool.not_false, Bool.and_true]

theorem ofList_chars_ne (cs : List Char) (hc : c.isDigit = false) :
    String.ofList n.chars ≠ String.ofList (c :: cs) := by
  obtain ⟨d, ds, hchars, hd⟩ := n.exists_chars_eq
  rw [hchars]
  intro heq
  have hlist := congrArg String.toList heq
  rw [String.toList_ofList, String.toList_ofList] at hlist
  cases hlist
  rw [hc] at hd
  cases hd

theorem parse_marked (hmarked : n.Marked) (hsmall : n.Small) (hbits : bits < infinityBits)
    (h : FloatNumeral.magnitude ⟨false, n.mantissa, 10, n.scale⟩ = bits) :
    parse (String.ofList n.chars) = .ok (float (floatOfMagnitude false bits)) := by
  unfold parse
  rw [if_neg (ofList_chars_ne (c := 't') ['r', 'u', 'e'] (by decide)),
    if_neg (ofList_chars_ne (c := 'f') ['a', 'l', 's', 'e'] (by decide)), String.toList_ofList,
    if_pos ((looksLikeFloat_chars n).2 hmarked), readFloat, readFloatNumeral?_chars hsmall]
  dsimp only
  rw [h, if_pos hbits]

/-- A numeral without a point or exponent gets a zero behind a point. -/
theorem value_pointed (ds : Digits) :
    Numeral.value { whole := ds, fraction := some .zero } = Numeral.value { whole := ds } := by
  have hmantissa : Numeral.mantissa { whole := ds, fraction := some .zero } = ds.value * 10 := by
    show Nat.ofDigitChars 10 ['0'] ds.value = _
    rw [Nat.ofDigitChars_cons, Nat.ofDigitChars_nil]
    omega
  have hscale : Numeral.scale { whole := ds, fraction := some .zero } = -1 := rfl
  have hmantissa' : Numeral.mantissa { whole := ds } = ds.value := rfl
  have hscale' : Numeral.scale { whole := ds } = 0 := rfl
  rw [Numeral.value, Numeral.value, hmantissa, hscale, hmantissa', hscale']
  push_cast
  rw [zpow_neg_one]
  field_simp

/-- The text of a finite magnitude with a point or exponent denotes it. -/
theorem exists_numeral_double (h : bits < infinityBits) :
    ∃ n : Numeral, n.Marked ∧ parse (String.ofList n.chars) = .ok (float (floatOfMagnitude false bits)) ∧
      (n.chars = floatFormat.magnitude bits ∨
        (floatFormat.magnitude bits).any (fun c => c == '.' || c == 'e') = false ∧
          n.chars = floatFormat.magnitude bits ++ ['.', '0']) := by
  rcases Nat.eq_zero_or_pos bits with rfl | hpos
  · refine ⟨{ whole := .zero, fraction := some .zero }, .inl rfl, ?_, .inr ⟨by decide, by decide⟩⟩
    apply parse_marked (.inl rfl) (fun e he => by cases he) h
    rfl
  · obtain ⟨n, hchars, hsmall, hrounds⟩ := exists_numeral_magnitude floatFormat hpos h
    by_cases hmarked : n.Marked
    · exact ⟨n, hmarked, parse_marked hmarked hsmall h (magnitude_of_roundsTo hpos hrounds), .inl hchars⟩
    · have hany : (n.chars.any fun c => c == '.' || c == 'e') = false := by
        rw [← Bool.not_eq_true, any_mark_iff]
        exact hmarked
      obtain ⟨whole, fraction, exponent⟩ := n
      simp only [Numeral.Marked, not_or, Option.not_isSome_iff_eq_none] at hmarked
      obtain ⟨rfl, rfl⟩ := hmarked
      refine ⟨{ whole, fraction := some .zero }, .inl rfl, ?_, .inr ⟨hchars ▸ hany, ?_⟩⟩
      · apply parse_marked (.inl rfl) (fun e he => by cases he) h
        apply magnitude_of_roundsTo hpos
        rwa [value_pointed]
      · rw [← hchars]
        show whole.chars ++ (['.', '0'] ++ []) = whole.chars ++ ([] ++ []) ++ ['.', '0']
        rw [append_nil, append_nil, append_nil]

/-- The sign of a text that may be negative. -/
def signChars (negative : Bool) : List Char := if negative then ['-'] else []

theorem floatText_eq (negative : Bool) (h : bits < infinityBits)
    (hchars : n.chars = floatFormat.magnitude bits ∨
      (floatFormat.magnitude bits).any (fun c => c == '.' || c == 'e') = false ∧
        n.chars = floatFormat.magnitude bits ++ ['.', '0'])
    (hmarked : n.Marked) :
    floatText (floatOfMagnitude negative bits) = String.ofList (signChars negative ++ n.chars) := by
  have hformat : floatFormat.text (floatOfMagnitude negative bits) =
      String.ofList (signChars negative ++ floatFormat.magnitude bits) := by
    unfold FloatFormat.text
    rw [magnitudeOfFloat_floatOfMagnitude negative h]
    dsimp only
    rw [if_neg (by omega), if_neg (by omega)]
    rfl
  have hsign : (signChars negative).any (fun c => c == '.' || c == 'e') = false := by
    cases negative <;> decide
  unfold floatText
  rw [hformat]
  dsimp only
  rw [show (".0" : String) = String.ofList ['.', '0'] from rfl, ← String.ofList_append]
  rw [String.toList_ofList, any_append, hsign, Bool.false_or]
  rcases hchars with hchars | ⟨hany, hchars⟩
  · rw [← hchars, if_pos ((any_mark_iff n).2 hmarked)]
  · rw [if_neg (by rw [hany]; decide), hchars, append_assoc]

/-! ## Integers -/

/-- The digits of a positive number do not start with a zero. -/
theorem head_toDigits_ne {k : Nat} (h : 0 < k) {cs : List Char} : Nat.toDigits 10 k ≠ '0' :: cs := by
  induction k using Nat.strongRecOn generalizing cs with
  | ind k ih =>
    rw [Nat.toDigits_eq_if (by decide)]
    split
    · intro heq
      rw [List.cons.injEq, Nat.digitChar_eq_zero] at heq
      omega
    · intro heq
      obtain ⟨ds, hds⟩ : ∃ ds, Nat.toDigits 10 (k / 10) = '0' :: ds := by
        obtain ⟨c, ds, hc⟩ := exists_cons_of_ne_nil (Nat.toDigits_ne_nil (n := k / 10) (b := 10))
        rw [hc, cons_append, List.cons.injEq] at heq
        exact ⟨ds, heq.1 ▸ hc⟩
      exact ih (k / 10) (by omega) (by omega) hds

theorem digitsValue_eq (h : ∀ c ∈ ds, c.isDigit = true) : digitsValue 10 ds = Nat.ofDigitChars 10 ds 0 := by
  induction ds with
  | nil => rfl
  | cons c cs ih =>
    rw [digitsValue_cons, ih fun d hd => h d (mem_cons_of_mem c hd), (isDigitOf_ten (h c mem_cons_self)).2,
      Nat.ofDigitChars_cons, Nat.mul_zero, Nat.zero_add, Nat.mul_comm]
    exact Nat.ofDigitChars_eq_ofDigitChars_zero.symm

theorem intNumeral_toDigits (k : Nat) : IntNumeral (Nat.toDigits 10 k) k := by
  rcases Nat.eq_zero_or_pos k with rfl | hpos
  · exact .octal (forall_mem_nil _)
  · have hdigits : ∀ c ∈ Nat.toDigits 10 k, c.isDigit = true := (Digits.ofNat k).isDigit
    have hvalue := digitsValue_eq hdigits
    rw [Nat.ofDigitChars_ten_toDigits] at hvalue
    obtain ⟨d, ds, hds⟩ := exists_cons_of_ne_nil (Nat.toDigits_ne_nil (n := k) (b := 10))
    rw [hds] at hdigits hvalue ⊢
    have hd : d ≠ '0' := by
      rintro rfl
      exact head_toDigits_ne hpos hds
    have hnumeral := IntNumeral.decimal hd fun c hc => (isDigitOf_ten (hdigits c hc)).1
    rwa [hvalue] at hnumeral

theorem toString_int (i : ℤ) : toString i = String.ofList (signChars (decide (i < 0)) ++ Nat.toDigits 10 i.natAbs) := by
  cases i with
  | ofNat k =>
    have hsign : signChars (decide (Int.ofNat k < 0)) = [] := by
      rw [decide_eq_false (by simp)]
      rfl
    rw [hsign]
    exact Nat.repr_eq_ofList_toDigits
  | negSucc k =>
    have hsign : signChars (decide (Int.negSucc k < 0)) = ['-'] := by
      rw [decide_eq_true (Int.negSucc_lt_zero k)]
      rfl
    rw [hsign, String.ofList_append]
    show "-" ++ (k + 1).repr = _
    rw [Nat.repr_eq_ofList_toDigits]
    rfl

/-! ## Constants -/

/-- The text of the constant starts with a minus sign. -/
def isNegative : Value → Bool
  | bool _ => false
  | int i => decide (i.toInt < 0)
  | float f => (magnitudeOfFloat f).1

/-- The constant without its sign. -/
def magnitude (v : Value) : Value := if v.isNegative then v.neg?.getD v else v

/-- The text of a number is a numeral behind its sign, and the numeral denotes the number without its sign. -/
theorem exists_numeral {v : Value} (hfinite : v.isFinite = true) (hkind : v.kind ≠ .bool) :
    ∃ n : Numeral, v.text = String.ofList (signChars v.isNegative ++ n.chars) ∧
      parse (String.ofList n.chars) = .ok v.magnitude := by
  cases v with
  | bool b => exact absurd rfl hkind
  | int i =>
    let n : Numeral := { whole := .ofNat i.toInt.natAbs }
    have hchars : n.chars = Nat.toDigits 10 i.toInt.natAbs := append_nil _
    have hlow := i.minValue_le_toInt
    have hhigh := i.toInt_le
    rw [Int32.toInt_minValue] at hlow
    rw [Int32.toInt_maxValue] at hhigh
    refine ⟨n, ?_, ?_⟩
    · rw [hchars]
      exact toString_int i.toInt
    · rw [hchars, parse_of_intNumeral (intNumeral_toDigits _), if_pos (by omega), magnitude, isNegative]
      by_cases hneg : i.toInt < 0
      · rw [decide_eq_true hneg, if_pos rfl, Int.ofNat_natAbs_of_nonpos hneg.le, Int32.ofInt_neg, Int32.ofInt_toInt]
        rfl
      · rw [decide_eq_false hneg, if_neg (by decide), Int.natAbs_of_nonneg (by omega), Int32.ofInt_toInt]
  | float f =>
    have hbits : (magnitudeOfFloat f).2 < infinityBits := of_decide_eq_true hfinite
    have hsame := floatOfMagnitude_magnitudeOfFloat hbits
    obtain ⟨n, hmarked, hparse, hchars⟩ := exists_numeral_double hbits
    refine ⟨n, ?_, ?_⟩
    · show floatText f = _
      rw [← hsame, floatText_eq _ hbits hchars hmarked, hsame]
      rfl
    · rw [hparse, magnitude, isNegative]
      cases hneg : (magnitudeOfFloat f).1 with
      | false =>
        rw [if_neg (by decide)]
        rw [hneg] at hsame
        rw [hsame]
      | true =>
        rw [hneg] at hsame
        rw [if_pos rfl, neg?, Option.getD_some, ← hsame, neg_floatOfMagnitude true hbits, hsame]
        rfl

/-- Behind a minus sign the magnitude of a negative number is the number again. -/
theorem neg?_magnitude {v : Value} (hfinite : v.isFinite = true) (hneg : v.isNegative = true) :
    v.magnitude.neg? = some v := by
  cases v with
  | bool b => cases hneg
  | int i =>
    rw [magnitude, if_pos hneg]
    show some (int (- -i)) = _
    rw [Int32.neg_neg]
  | float f =>
    have hbits : (magnitudeOfFloat f).2 < infinityBits := of_decide_eq_true hfinite
    have hsame := floatOfMagnitude_magnitudeOfFloat hbits
    rw [magnitude, if_pos hneg]
    show some (float (- -f)) = _
    rw [← hsame, neg_floatOfMagnitude _ hbits, neg_floatOfMagnitude _ hbits, Bool.not_not]

theorem kind_magnitude (v : Value) : v.magnitude.kind = v.kind := by
  cases v <;> simp only [magnitude, neg?, Option.getD_some, Option.getD_none] <;> split <;> rfl

end Shading.Value
