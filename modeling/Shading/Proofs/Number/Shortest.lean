import Mathlib.Algebra.Order.Field.Rat
import Mathlib.Tactic.FieldSimp
import Mathlib.Tactic.Linarith
import Mathlib.Tactic.NormNum
import Mathlib.Tactic.Positivity
import Mathlib.Tactic.Ring
import Shading.Number.Shortest
import Shading.Proofs.Number.Rounding

/-!
# The shortest decimal rounds to its double

The search tries grids of one to seventeen digits. On the last grid a neighbour of the double is nearer to it than
either end of its rounding interval, so the search ends with a decimal of the interval (`roundsTo_shortestDecimal`).
-/

namespace Shading.Number

def Decimal.value (d : Decimal) : ℚ := d.digits * 10 ^ d.exponent

theorem ten_zpow_pos (k : ℤ) : (0 : ℚ) < 10 ^ k := zpow_pos (by norm_num) k

/-- A power with an integer exponent is a fraction of two powers, one of which is one. -/
theorem zpow_eq_div {base : ℚ} (h : base ≠ 0) (k : ℤ) : base ^ k = base ^ k.toNat / base ^ (-k).toNat := by
  rw [← zpow_natCast, ← zpow_natCast, ← zpow_sub₀ h]
  congr 1
  omega

namespace RoundingInterval

variable {b : Binary}

theorem denominator_pos (b : Binary) : 0 < (of b).denominator := power_pos (by decide) _

/-- Quarters of the binary unit over the denominator. -/
theorem quarters_div (b : Binary) (n : Nat) :
    ((n * power 2 (b.exponent - 2).toNat : Nat) : ℚ) / (of b).denominator = n / 4 * 2 ^ b.exponent := by
  have hunit : (2 : ℚ) ^ (b.exponent - 2) = 2 ^ b.exponent / 4 := by
    rw [zpow_sub₀ (by norm_num)]
    norm_num
  rw [zpow_eq_div (by norm_num)] at hunit
  have hden : ((of b).denominator : ℚ) = 2 ^ (-(b.exponent - 2)).toNat := by
    simp only [of, power_eq, Nat.cast_pow, Nat.cast_ofNat]
  rw [hden, power_eq]
  push_cast
  rw [mul_div_assoc, hunit]
  ring

theorem value_div (b : Binary) : ((of b).value : ℚ) / (of b).denominator = b.value := by
  have hdiv := quarters_div b (4 * b.mantissa)
  rw [Binary.value]
  push_cast at hdiv
  rw [mul_div_cancel_left₀ _ (by norm_num)] at hdiv
  exact_mod_cast hdiv

theorem high_div (b : Binary) :
    ((of b).high : ℚ) / (of b).denominator = (b.mantissa + 1 / 2) * 2 ^ b.exponent := by
  have hdiv := quarters_div b (4 * b.mantissa + 2)
  calc ((of b).high : ℚ) / (of b).denominator = ((4 * b.mantissa + 2 : Nat) : ℚ) / 4 * 2 ^ b.exponent := hdiv
    _ = (b.mantissa + 1 / 2) * 2 ^ b.exponent := by
      push_cast
      ring

theorem low_div (hb : b.Canonical) :
    ((of b).low : ℚ) / (of b).denominator =
      (b.mantissa - if b.Narrow then 1 / 4 else 1 / 2) * 2 ^ b.exponent := by
  have hpos := hb.pos
  have hdiv := quarters_div b (4 * b.mantissa - if b.Narrow then 1 else 2)
  calc ((of b).low : ℚ) / (of b).denominator =
      ((4 * b.mantissa - (if b.Narrow then 1 else 2) : Nat) : ℚ) / 4 * 2 ^ b.exponent := hdiv
    _ = (b.mantissa - if b.Narrow then 1 / 4 else 1 / 2) * 2 ^ b.exponent := by
      rw [Nat.cast_sub (by split <;> omega)]
      split <;> push_cast <;> ring

/-- The test of the interval is exact. -/
theorem holds_iff (hb : b.Canonical) (d : Decimal) : (of b).holds d = true ↔ b.RoundsTo d.value := by
  have hden : (0 : ℚ) < (of b).denominator := by exact_mod_cast denominator_pos b
  have hdown : (0 : ℚ) < (power 10 (-d.exponent).toNat : Nat) := by
    exact_mod_cast power_pos (by decide) _
  have hvalue : d.value = (d.digits * power 10 d.exponent.toNat : Nat) / (power 10 (-d.exponent).toNat : Nat) := by
    rw [Decimal.value, zpow_eq_div (by norm_num)]
    simp only [power_eq]
    push_cast
    ring
  unfold Binary.RoundsTo
  dsimp only
  rw [← low_div hb, ← high_div b, hvalue, div_le_div_iff₀ hden hdown, div_le_div_iff₀ hdown hden,
    div_lt_div_iff₀ hden hdown, div_lt_div_iff₀ hdown hden]
  unfold holds
  dsimp only
  by_cases heven : b.mantissa % 2 = 0
  · rw [if_pos (show (of b).closed = true from decide_eq_true heven), if_pos heven, Bool.and_eq_true,
      decide_eq_true_eq, decide_eq_true_eq]
    exact_mod_cast Iff.rfl
  · rw [if_neg (show ¬ (of b).closed = true by rw [show (of b).closed = false from decide_eq_false heven]; decide),
      if_neg heven, Bool.and_eq_true, decide_eq_true_eq, decide_eq_true_eq]
    exact_mod_cast Iff.rfl

/-- What the search comes to was tested. -/
theorem holds_of_neighbour? {i : RoundingInterval} {k : ℤ} {d : Decimal} (h : i.neighbour? k = some d) :
    i.holds d = true := by
  unfold neighbour? at h
  dsimp only at h
  split at h
  · rename_i hbelow habove
    split at h <;> cases h
    · exact hbelow
    · exact habove
  · cases h
    assumption
  · cases h
    assumption
  · cases h

theorem exists_neighbour? {i : RoundingInterval} {k : ℤ}
    (h : i.holds ⟨(i.onGrid k).1, k⟩ = true ∨ i.holds ⟨(i.onGrid k).1 + 1, k⟩ = true) :
    ∃ d, i.neighbour? k = some d := by
  unfold neighbour?
  dsimp only
  split
  · split <;> exact ⟨_, rfl⟩
  · exact ⟨_, rfl⟩
  · exact ⟨_, rfl⟩
  · rename_i hbelow habove
    rw [hbelow, habove] at h
    simp at h

/-- The search ends with a decimal of the interval if one of its grids has a neighbour there. -/
theorem holds_search {i : RoundingInterval} {j steps : Nat} {k : ℤ} (hj : j < steps) {d : Decimal}
    (h : i.neighbour? (k - j) = some d) : i.holds (i.search steps k) = true := by
  induction steps generalizing j k with
  | zero => omega
  | succ n ih =>
    unfold search
    split
    · rename_i hfound
      exact holds_of_neighbour? hfound
    · rename_i hnone
      cases j with
      | zero =>
        rw [Nat.cast_zero, sub_zero, hnone] at h
        cases h
      | succ j =>
        apply ih (show j < n by omega)
        rw [← h]
        congr 1
        push_cast
        ring

/-! ### The first digit -/

theorem lt_pow_digitCount (n : Nat) : n < 10 ^ digitCount n := by
  unfold digitCount
  split
  · rename_i hzero
    rw [hzero]
    decide
  · exact (Nat.length_toDigits_le_iff (by decide) Nat.length_toDigits_pos).1 le_rfl

theorem pow_digitCount_le {n : Nat} (h : 0 < n) : 10 ^ (digitCount n - 1) ≤ n := by
  unfold digitCount
  rw [if_neg h.ne']
  by_cases hone : (Nat.toDigits 10 n).length - 1 = 0
  · rw [hone]
    exact h
  · have hiff := Nat.length_toDigits_le_iff (b := 10) (n := n) (k := (Nat.toDigits 10 n).length - 1) (by decide) (by omega)
    by_contra hlt
    have hle := hiff.2 (by omega)
    omega

theorem digitCount_pos {n : Nat} (h : 0 < n) : 0 < digitCount n := by
  unfold digitCount
  rw [if_neg h.ne']
  exact Nat.length_toDigits_pos

/-- The value has a digit where the search begins. -/
theorem ten_zpow_leadingExponent_le (hb : b.Canonical) : (10 : ℚ) ^ (of b).leadingExponent ≤ b.value := by
  have hden := denominator_pos b
  have hdenq : (0 : ℚ) < (of b).denominator := by exact_mod_cast hden
  have hvalue : 0 < (of b).value :=
    Nat.mul_pos (Nat.mul_pos (by decide) hb.pos) (power_pos (by decide) _)
  rw [← value_div b, le_div_iff₀ hdenq]
  unfold leadingExponent
  split
  · -- the whole part has digits
    rename_i hle
    have hwhole : 0 < (of b).value / (of b).denominator := Nat.div_pos hle hden
    have hexp : ((digitCount ((of b).value / (of b).denominator) : ℤ) - 1) =
        ((digitCount ((of b).value / (of b).denominator) - 1 : Nat) : ℤ) := by
      have := digitCount_pos hwhole
      omega
    rw [hexp, zpow_natCast]
    have hmul := Nat.mul_le_mul_right (of b).denominator (pow_digitCount_le hwhole)
    exact_mod_cast hmul.trans (Nat.div_mul_le_self _ _)
  · -- as many zeros behind the point as the reciprocal has digits
    rename_i hlt
    have hpow := lt_pow_digitCount (((of b).denominator + (of b).value - 1) / (of b).value - 1)
    generalize digitCount (((of b).denominator + (of b).value - 1) / (of b).value - 1) = count at hpow
    have hceil : ((of b).denominator + (of b).value - 1) / (of b).value < 10 ^ count + 1 := by omega
    rw [Nat.div_lt_iff_lt_mul hvalue] at hceil
    have hle : (of b).denominator ≤ 10 ^ count * (of b).value := by
      rw [Nat.add_mul] at hceil
      omega
    rw [zpow_neg, zpow_natCast, inv_mul_le_iff₀ (by positivity)]
    exact_mod_cast hle

/-! ### The last grid -/

/-- What is nearer to a double than its own value over twenty million billions rounds to it. -/
theorem roundsTo_of_close (hb : b.Canonical) {x δ : ℚ} (hlow : b.value - x ≤ δ) (hhigh : x - b.value ≤ δ)
    (hδ : 2 * 10 ^ 16 * δ ≤ b.value) : b.RoundsTo x := by
  have hunit := two_zpow_pos b.exponent
  have hmantissa : (b.mantissa : ℚ) + 1 ≤ 2 ^ 53 := by exact_mod_cast hb.mantissa_lt
  have hstrict : (b.mantissa - if b.Narrow then 1 / 4 else 1 / 2 : ℚ) * 2 ^ b.exponent < x ∧
      x < (b.mantissa + 1 / 2) * 2 ^ b.exponent := by
    rw [Binary.value] at hlow hhigh hδ
    have hscaled := mul_le_mul_of_nonneg_right hmantissa hunit.le
    split
    · rename_i hnarrow
      rw [hnarrow.1] at hlow hhigh hδ ⊢
      push_cast at hlow hhigh hδ ⊢
      constructor <;> linarith
    · constructor <;> linarith
  unfold Binary.RoundsTo
  dsimp only
  split
  · exact ⟨hstrict.1.le, hstrict.2.le⟩
  · exact hstrict

/-- The value lies between its neighbours on a grid. -/
theorem onGrid_bounds (b : Binary) (k : ℤ) :
    (((of b).onGrid k).1 : ℚ) * 10 ^ k ≤ b.value ∧ b.value < (((of b).onGrid k).1 + 1) * 10 ^ k := by
  have hden : 0 < (of b).denominator * power 10 k.toNat := Nat.mul_pos (denominator_pos b) (power_pos (by decide) _)
  have hdenq : (0 : ℚ) < ((of b).denominator * power 10 k.toNat : Nat) := by exact_mod_cast hden
  have hquot : ((of b).value * power 10 (-k).toNat : Nat) / ((of b).denominator * power 10 k.toNat : Nat) =
      b.value / (10 : ℚ) ^ k := by
    rw [← value_div b, zpow_eq_div (by norm_num)]
    simp only [power_eq]
    push_cast
    field_simp
  rw [← le_div_iff₀ (ten_zpow_pos k), ← div_lt_iff₀ (ten_zpow_pos k), ← hquot, le_div_iff₀ hdenq, div_lt_iff₀ hdenq]
  constructor
  · exact_mod_cast Nat.div_mul_le_self _ _
  · exact_mod_cast (Nat.div_lt_iff_lt_mul hden).1 (Nat.lt_succ_self _)

/-- Seventeen digits are enough. -/
theorem exists_neighbour?_sixteen (hb : b.Canonical) :
    ∃ d, (of b).neighbour? ((of b).leadingExponent - (16 : Nat)) = some d := by
  have hlead := ten_zpow_leadingExponent_le hb
  generalize (of b).leadingExponent = lead at hlead
  have hunit : (10 : ℚ) ^ lead = 10 ^ 16 * 10 ^ (lead - (16 : Nat)) := by
    rw [← zpow_natCast, ← zpow_add₀ (by norm_num)]
    congr 1
    omega
  rw [hunit] at hlead
  obtain ⟨hbelow, habove⟩ := onGrid_bounds b (lead - (16 : Nat))
  apply exists_neighbour?
  rw [holds_iff hb, holds_iff hb, Decimal.value, Decimal.value]
  push_cast at hlead hbelow habove ⊢
  generalize (10 : ℚ) ^ (lead - 16) = unit at *
  by_cases hhalf : b.value - ((of b).onGrid (lead - 16)).1 * unit ≤ unit / 2
  · left
    apply roundsTo_of_close hb (δ := unit / 2) <;> linarith
  · right
    apply roundsTo_of_close hb (δ := unit / 2) <;> linarith

end RoundingInterval

/-- The shortest decimal of a double rounds to it. -/
theorem roundsTo_shortestDecimal {b : Binary} (hb : b.Canonical) : b.RoundsTo (shortestDecimal b).value := by
  obtain ⟨d, hd⟩ := RoundingInterval.exists_neighbour?_sixteen hb
  rw [← RoundingInterval.holds_iff hb]
  exact RoundingInterval.holds_search (by decide) hd

end Shading.Number
