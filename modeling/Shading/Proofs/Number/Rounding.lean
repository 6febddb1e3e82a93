import Mathlib.Algebra.Order.Field.Rat
import Mathlib.Tactic.FieldSimp
import Mathlib.Tactic.Linarith
import Mathlib.Tactic.Positivity
import Mathlib.Tactic.Ring
import Shading.Number.Binary64
import Shading.Proofs.Number.Bits

/-!
# Rounding goes to the double of the interval

A double is the result of rounding for all quotients in an interval around it: half a unit on both sides, a quarter
below a power of two, with the ends if the mantissa is even (`RoundsTo`). Whatever quotient lies there,
`roundQuotient` comes to the pattern of that double.
-/

namespace Shading.Number

namespace Binary

def value (b : Binary) : ℚ := b.mantissa * 2 ^ b.exponent

/-- The mantissa has 53 binary digits, or fewer where the exponent is the least one. -/
structure Canonical (b : Binary) : Prop where
  pos : 0 < b.mantissa
  mantissa_lt : b.mantissa < 2 ^ 53
  least_le : leastExponent ≤ b.exponent
  full : leastExponent < b.exponent → 2 ^ 52 ≤ b.mantissa

/-- The neighbour below is half as far as the one above. -/
def Narrow (b : Binary) : Prop := b.mantissa = 2 ^ 52 ∧ leastExponent < b.exponent

instance (b : Binary) : Decidable b.Narrow := inferInstanceAs (Decidable (_ ∧ _))

/-- The quotient is nearer to the double than to any other, or as near and the double is even. -/
def RoundsTo (b : Binary) (x : ℚ) : Prop :=
  let low : ℚ := (b.mantissa - if b.Narrow then 1 / 4 else 1 / 2) * 2 ^ b.exponent
  let high : ℚ := (b.mantissa + 1 / 2) * 2 ^ b.exponent
  if b.mantissa % 2 = 0 then low ≤ x ∧ x ≤ high else low < x ∧ x < high

theorem ofMagnitudeBits_eq (bits : Nat) :
    ofMagnitudeBits bits = if bits / 2 ^ 52 = 0 then ⟨bits % 2 ^ 52, leastExponent⟩
      else ⟨bits % 2 ^ 52 + 2 ^ 52, leastExponent - 1 + (bits / 2 ^ 52 : Nat)⟩ := rfl

theorem magnitudeBits_eq (b : Binary) :
    b.magnitudeBits = (b.exponent - leastExponent).toNat * 2 ^ 52 + b.mantissa := rfl

theorem canonical_ofMagnitudeBits {bits : Nat} (h : 0 < bits) : (ofMagnitudeBits bits).Canonical := by
  rw [ofMagnitudeBits_eq]
  split
  · constructor <;> dsimp only <;> omega
  · constructor <;> dsimp only <;> omega

theorem magnitudeBits_ofMagnitudeBits (bits : Nat) : (ofMagnitudeBits bits).magnitudeBits = bits := by
  rw [ofMagnitudeBits_eq, magnitudeBits_eq]
  split
  · dsimp only
    omega
  · dsimp only
    omega

end Binary

/-! ### The parts of rounding -/

theorem two_zpow_pos (q : ℤ) : (0 : ℚ) < 2 ^ q := zpow_pos (by norm_num) q

variable {den num m : Nat} {q : ℤ} {x : ℚ} {b : Binary}

theorem scaleBinary_pos (num : Nat) (hden : 0 < den) (q : ℤ) : 0 < (scaleBinary num den q).2 := by
  unfold scaleBinary
  split
  · exact Nat.mul_pos hden (power_pos (by decide) _)
  · exact hden

theorem scaleBinary_eq (num : Nat) (hden : 0 < den) (q : ℤ) :
    ((scaleBinary num den q).1 : ℚ) / (scaleBinary num den q).2 = (num / den : ℚ) / 2 ^ q := by
  have hd : (den : ℚ) ≠ 0 := by exact_mod_cast hden.ne'
  unfold scaleBinary
  split
  · rename_i hq
    obtain ⟨k, rfl⟩ := Int.eq_ofNat_of_zero_le hq
    simp only [power_eq, Int.toNat_natCast, Nat.cast_mul, Nat.cast_pow, Nat.cast_ofNat, zpow_natCast]
    rw [div_div]
  · rename_i hq
    obtain ⟨k, hk⟩ := Int.eq_ofNat_of_zero_le (show 0 ≤ -q by omega)
    obtain rfl : q = -k := by omega
    simp only [power_eq, neg_neg, Int.toNat_natCast, Nat.cast_mul, Nat.cast_pow, Nat.cast_ofNat, zpow_neg, zpow_natCast]
    field_simp

/-- The whole number that a quotient is nearest to, a half going to the even one. -/
theorem divNearestEven_eq (hden : 0 < den) (hlow : 2 * m * den ≤ 2 * num + den) (hhigh : 2 * num ≤ 2 * m * den + den)
    (hodd : m % 2 = 1 → 2 * m * den < 2 * num + den ∧ 2 * num < 2 * m * den + den) :
    divNearestEven num den = m := by
  have hparts := Nat.div_add_mod num den
  have hrest := Nat.mod_lt num hden
  unfold divNearestEven
  dsimp only
  generalize num / den = low at *
  generalize num % den = rest at *
  have hcases : low = m ∨ low + 1 = m := by
    rcases Nat.lt_trichotomy low m with hlt | heq | hgt
    · by_contra hne
      have hmul : den * (low + 2) ≤ den * m := Nat.mul_le_mul_left den (by omega)
      nlinarith
    · exact .inl heq
    · have hmul : den * (m + 1) ≤ den * low := Nat.mul_le_mul_left den hgt
      nlinarith
  rcases hcases with rfl | rfl
  · have hle : 2 * rest ≤ den := by nlinarith
    have hlt : low % 2 = 1 → 2 * rest < den := fun h => by nlinarith [(hodd h).2]
    rw [if_neg]
    omega
  · have hge : den ≤ 2 * rest := by nlinarith
    have hgt : low % 2 = 0 → den < 2 * rest := fun h => by nlinarith [(hodd (by omega)).1]
    rw [if_pos]
    omega

/-- The quotient is nearest to the whole number, or as near and the number is even. -/
def Near (m : Nat) (y : ℚ) : Prop :=
  (m - 1 / 2 : ℚ) ≤ y ∧ y ≤ m + 1 / 2 ∧ (m % 2 = 1 → (m - 1 / 2 : ℚ) < y ∧ y < m + 1 / 2)

theorem divNearestEven_of_near (hden : 0 < den) (h : Near m (num / den)) :
    divNearestEven num den = m := by
  have hd : (0 : ℚ) < den := by exact_mod_cast hden
  obtain ⟨hlow, hhigh, hodd⟩ := h
  rw [le_div_iff₀ hd] at hlow
  rw [div_le_iff₀ hd] at hhigh
  apply divNearestEven_eq hden
  · have hcast : (2 * m * den : ℚ) ≤ 2 * num + den := by linarith
    exact_mod_cast hcast
  · have hcast : (2 * num : ℚ) ≤ 2 * m * den + den := by linarith
    exact_mod_cast hcast
  · intro hm
    obtain ⟨hlow', hhigh'⟩ := hodd hm
    rw [lt_div_iff₀ hd] at hlow'
    rw [div_lt_iff₀ hd] at hhigh'
    have hcast : (2 * m * den : ℚ) < 2 * num + den ∧ (2 * num : ℚ) < 2 * m * den + den := by
      constructor <;> linarith
    exact_mod_cast hcast

/-- The quotient counted in units of two to the exponent has 53 binary digits. -/
def Spans (q : ℤ) (x : ℚ) : Prop := 2 ^ 52 * 2 ^ q ≤ x ∧ x < 2 ^ 53 * 2 ^ q

/-- No other unit gives so many digits. -/
theorem Spans.le {e : ℤ} (hq : Spans q x) (he : x < 2 ^ 53 * 2 ^ e) : q ≤ e := by
  by_contra hlt
  have hstep : (2 : ℚ) ^ (e + 1) ≤ 2 ^ q := zpow_le_zpow_right₀ (by norm_num) (by omega)
  rw [zpow_add_one₀ (by norm_num)] at hstep
  linarith [hq.1]

theorem Spans.ge {e : ℤ} (hq : Spans q x) (he : 2 ^ 52 * 2 ^ e ≤ x) : e ≤ q := by
  by_contra hlt
  have hstep : (2 : ℚ) ^ (q + 1) ≤ 2 ^ e := zpow_le_zpow_right₀ (by norm_num) (by omega)
  rw [zpow_add_one₀ (by norm_num)] at hstep
  linarith [hq.2]

/-- The quotient of two numbers is between the quotients of the powers of two around them. -/
theorem quotient_bounds (hnum : 0 < num) (hden : 0 < den) :
    let guess : ℤ := (Nat.log2 num : ℤ) - (Nat.log2 den : ℤ) - 53
    2 ^ 52 * 2 ^ guess ≤ (num / den : ℚ) ∧ (num / den : ℚ) < 2 ^ 54 * 2 ^ guess := by
  intro guess
  have hd : (0 : ℚ) < den := by exact_mod_cast hden
  have hnum' : num < 2 ^ num.log2 * 2 := Nat.lt_log2_self
  have hden' : den < 2 ^ den.log2 * 2 := Nat.lt_log2_self
  have hnlow : (2 : ℚ) ^ num.log2 ≤ num := by exact_mod_cast Nat.log2_self_le hnum.ne'
  have hnhigh : (num : ℚ) < 2 ^ num.log2 * 2 := by exact_mod_cast hnum'
  have hdlow : (2 : ℚ) ^ den.log2 ≤ den := by exact_mod_cast Nat.log2_self_le hden.ne'
  have hdhigh : (den : ℚ) < 2 ^ den.log2 * 2 := by exact_mod_cast hden'
  have hguess : (2 : ℚ) ^ guess = 2 ^ num.log2 / (2 ^ den.log2 * 2 ^ 53) := by
    rw [zpow_sub₀ (by norm_num), zpow_sub₀ (by norm_num), zpow_natCast, zpow_natCast, div_div]
    norm_num
  have hn : (0 : ℚ) < 2 ^ num.log2 := by positivity
  have hb : (0 : ℚ) < 2 ^ den.log2 := by positivity
  rw [hguess, le_div_iff₀ hd, div_lt_iff₀ hd]
  generalize (2 : ℚ) ^ num.log2 = n at *
  generalize (2 : ℚ) ^ den.log2 = d at *
  constructor
  · calc 2 ^ 52 * (n / (d * 2 ^ 53)) * den = n * (den / (d * 2)) := by field_simp
      _ ≤ n * 1 := by
        apply mul_le_mul_of_nonneg_left _ hn.le
        rw [div_le_one (by positivity)]
        exact hdhigh.le
      _ ≤ num := by rwa [mul_one]
  · calc (num : ℚ) < n * 2 * 1 := by rwa [mul_one]
      _ ≤ n * 2 * (den / d) := by
        apply mul_le_mul_of_nonneg_left _ (by positivity)
        rwa [one_le_div hb]
      _ = 2 ^ 54 * (n / (d * 2 ^ 53)) * den := by field_simp

/-- The exponent of rounding is the one with 53 digits, or the least one if that is larger. -/
theorem exists_exponentFor (hnum : 0 < num) (hden : 0 < den) :
    ∃ q, exponentFor num den = max q Binary.leastExponent ∧ Spans q (num / den) := by
  obtain ⟨hlow, hhigh⟩ := quotient_bounds hnum hden
  set guess : ℤ := (Nat.log2 num : ℤ) - (Nat.log2 den : ℤ) - 53 with hguess
  have hpos := scaleBinary_pos num hden guess
  have htest : (scaleBinary num den guess).1 / (scaleBinary num den guess).2 < 2 ^ 53 ↔
      (num / den : ℚ) < 2 ^ 53 * 2 ^ guess := by
    rw [Nat.div_lt_iff_lt_mul hpos, ← div_lt_iff₀ (two_zpow_pos guess), ← scaleBinary_eq num hden guess,
      div_lt_iff₀ (by exact_mod_cast hpos)]
    exact_mod_cast Iff.rfl
  refine ⟨if (scaleBinary num den guess).1 / (scaleBinary num den guess).2 < power 2 53 then guess else guess + 1,
    rfl, ?_⟩
  rw [power_eq]
  split
  · rename_i hsmall
    exact ⟨hlow, htest.1 hsmall⟩
  · rename_i hlarge
    rw [htest, not_lt] at hlarge
    rw [Spans, zpow_add_one₀ (by norm_num)]
    constructor <;> linarith

/-- Rounding in units of two to the right exponent gives the nearest mantissa. -/
theorem roundQuotient_of_near (hnum : 0 < num) (hden : 0 < den) (hq : exponentFor num den = q)
    (h : Near m ((num / den : ℚ) / 2 ^ q)) :
    roundQuotient num den = Binary.magnitudeBits ⟨m, q⟩ := by
  unfold roundQuotient
  rw [if_neg hnum.ne', hq]
  dsimp only
  rw [divNearestEven_of_near (scaleBinary_pos num hden q) (by rwa [scaleBinary_eq num hden q])]

namespace Binary

theorem RoundsTo.near (h : b.RoundsTo x) : Near b.mantissa (x / 2 ^ b.exponent) := by
  have hunit := two_zpow_pos b.exponent
  unfold Near
  rw [le_div_iff₀ hunit, div_le_iff₀ hunit, lt_div_iff₀ hunit, div_lt_iff₀ hunit]
  have hgap : ((b.mantissa : ℚ) - 1 / 2) * 2 ^ b.exponent ≤
      (b.mantissa - if b.Narrow then 1 / 4 else 1 / 2) * 2 ^ b.exponent := by
    apply mul_le_mul_of_nonneg_right _ hunit.le
    split <;> linarith
  unfold RoundsTo at h
  dsimp only at h
  split at h
  · rename_i heven
    exact ⟨hgap.trans h.1, h.2, fun hodd => by omega⟩
  · exact ⟨hgap.trans h.1.le, h.2.le, fun _ => ⟨hgap.trans_lt h.1, h.2⟩⟩

/-- Below a power of two the quotient is at most a quarter of a unit away. -/
theorem RoundsTo.quarter (h : b.RoundsTo x) (hnarrow : b.Narrow) :
    (2 ^ 52 - 1 / 4) * 2 ^ b.exponent ≤ x := by
  unfold RoundsTo at h
  simp only [if_pos hnarrow, hnarrow.1] at h
  rw [if_pos (by decide)] at h
  exact_mod_cast h.1

theorem RoundsTo.pos (hb : b.Canonical) (h : b.RoundsTo x) : 0 < x := by
  have hm : (1 : ℚ) ≤ b.mantissa := by exact_mod_cast hb.pos
  have hlow := h.near.1
  have hpos : 0 < x / 2 ^ b.exponent := by linarith
  exact (div_pos_iff_of_pos_right (two_zpow_pos b.exponent)).1 hpos

end Binary

/-- Just below a power of two the quotient has the digits of a smaller unit, and rounding carries. -/
theorem roundQuotient_of_narrow (hnarrow : b.Narrow) (hnum : 0 < num) (hden : 0 < den) (h : b.RoundsTo (num / den))
    (hbelow : (num / den : ℚ) < 2 ^ 52 * 2 ^ b.exponent) :
    roundQuotient num den = b.magnitudeBits := by
  obtain ⟨q, hexp, hspans⟩ := exists_exponentFor hnum hden
  have hlow := h.quarter hnarrow
  obtain ⟨hmantissa, hleast⟩ := hnarrow
  have hhalf : (2 : ℚ) ^ b.exponent = 2 ^ (b.exponent - 1) * 2 := by
    rw [← zpow_add_one₀ (by norm_num), sub_add_cancel]
  have hunit := two_zpow_pos (b.exponent - 1)
  rw [hhalf] at hlow hbelow
  have hle : q ≤ b.exponent - 1 := hspans.le (by linarith)
  have hge : b.exponent - 1 ≤ q := hspans.ge (by linarith)
  have hnear : Near (2 ^ 53) ((num / den : ℚ) / 2 ^ (b.exponent - 1)) := by
    refine ⟨?_, ?_, fun hodd => absurd hodd (by decide)⟩
    · rw [le_div_iff₀ hunit]
      push_cast
      linarith
    · rw [div_le_iff₀ hunit]
      push_cast
      linarith
  rw [roundQuotient_of_near hnum hden (by omega) hnear, Binary.magnitudeBits_eq, Binary.magnitudeBits_eq, hmantissa]
  dsimp only
  omega

/-- Every quotient in the interval of a double is rounded to it. -/
theorem roundQuotient_eq (hb : b.Canonical) (hden : 0 < den)
    (h : b.RoundsTo (num / den)) : roundQuotient num den = b.magnitudeBits := by
  have hunit := two_zpow_pos b.exponent
  have hd : (0 : ℚ) < den := by exact_mod_cast hden
  have hnum : 0 < num := by
    have hpos := (div_pos_iff_of_pos_right hd).1 (h.pos hb)
    exact_mod_cast hpos
  obtain ⟨q, hexp, hspans⟩ := exists_exponentFor hnum hden
  set x : ℚ := num / den with hx
  have hmantissa : (b.mantissa : ℚ) + 1 ≤ 2 ^ 53 := by exact_mod_cast hb.mantissa_lt
  have hbelow : x < 2 ^ 53 * 2 ^ b.exponent := by
    rw [← div_lt_iff₀ hunit]
    linarith [h.near.2.1]
  have hle : q ≤ b.exponent := hspans.le hbelow
  by_cases hfull : 2 ^ 52 * 2 ^ b.exponent ≤ x
  · -- the quotient has the digits of the double
    have hge := hspans.ge hfull
    have hleast := hb.least_le
    exact roundQuotient_of_near hnum hden (by omega) h.near
  rw [not_le] at hfull
  by_cases hleast : b.exponent = Binary.leastExponent
  · -- no smaller unit is left
    exact roundQuotient_of_near hnum hden (by omega) h.near
  have hnormal : Binary.leastExponent < b.exponent := by
    have hle := hb.least_le
    omega
  have hmantissa_le : (b.mantissa : ℚ) < 2 ^ 52 + 1 := by
    have hlow := h.near.1
    rw [← div_lt_iff₀ hunit] at hfull
    linarith
  have hlt : b.mantissa < 2 ^ 52 + 1 := by exact_mod_cast hmantissa_le
  have hge := hb.full hnormal
  exact roundQuotient_of_narrow ⟨by omega, hnormal⟩ hnum hden h hfull

/-! ### Rounding without overflow -/

theorem divNearestEven_le (hden : 0 < den) (h : num ≤ m * den) : divNearestEven num den ≤ m := by
  have hparts := Nat.div_add_mod num den
  have hle : num / den ≤ m := Nat.div_le_of_le_mul (by rwa [Nat.mul_comm])
  unfold divNearestEven
  dsimp only
  split
  · rename_i hup
    by_contra hlt
    have heq : num / den = m := by omega
    rw [heq, Nat.mul_comm den m] at hparts
    omega
  · exact hle

/-- A quotient below `2 ^ 53` is rounded to a finite double. -/
theorem roundQuotient_lt_infinityBits (hden : 0 < den) (h : (num / den : ℚ) < 2 ^ 53) :
    roundQuotient num den < infinityBits := by
  unfold roundQuotient
  rw [infinityBits_eq]
  split
  · decide
  rename_i hnum
  obtain ⟨q, hexp, hspans⟩ := exists_exponentFor (Nat.pos_of_ne_zero hnum) hden
  have hq : q ≤ 0 := hspans.le (by rwa [zpow_zero, mul_one])
  dsimp only
  have hscaled : (num / den : ℚ) < 2 ^ 53 * 2 ^ exponentFor num den := by
    refine hspans.2.trans_le (mul_le_mul_of_nonneg_left (zpow_le_zpow_right₀ (by norm_num) ?_) (by positivity))
    omega
  have hpos := scaleBinary_pos num hden (exponentFor num den)
  have hmantissa : divNearestEven (scaleBinary num den (exponentFor num den)).1
      (scaleBinary num den (exponentFor num den)).2 ≤ 2 ^ 53 := by
    apply divNearestEven_le hpos
    rw [← div_lt_iff₀ (two_zpow_pos _), ← scaleBinary_eq num hden, div_lt_iff₀ (by exact_mod_cast hpos)] at hscaled
    exact_mod_cast hscaled.le
  rw [Binary.magnitudeBits_eq]
  dsimp only
  unfold Binary.leastExponent at *
  omega

theorem floatOfInt_finite {i : ℤ} (h : i.natAbs < 2 ^ 53) : (magnitudeOfFloat (floatOfInt i)).2 < infinityBits := by
  have hquotient : (i.natAbs / (1 : Nat) : ℚ) < 2 ^ 53 := by
    rw [Nat.cast_one, div_one]
    exact_mod_cast h
  have hbits := roundQuotient_lt_infinityBits (by decide) hquotient
  rw [floatOfInt, magnitudeOfFloat_floatOfMagnitude _ hbits]
  exact hbits

end Shading.Number
