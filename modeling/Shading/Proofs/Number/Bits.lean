import Mathlib
import Shading.Number.Binary64

/-!
# Finite doubles are signs and magnitudes

A finite double is determined by its sign and its magnitude's bit pattern, and every sign and every pattern below
that of infinity make one. Negation changes the sign and nothing else.
-/

namespace Shading.Number
open Float.Model (UnpackedFloat Format)
open Float.Model.UnpackedFloat (Sign packComponents unpackExponent unpackMantissa unpackSign)

/-! ### The fields of a pattern -/

theorem toNat_packComponents (s : Sign) (e : BitVec 11) (m : BitVec 52) :
    (packComponents .binary64 s e m).toNat = s.toBitVec.toNat * 2 ^ 63 + e.toNat * 2 ^ 52 + m.toNat := by
  have he := e.isLt
  have hm := m.isLt
  simp only [packComponents, BitVec.toNat_append]
  rw [← Nat.shiftLeft_add_eq_or_of_lt (by exact hm), ← Nat.shiftLeft_add_eq_or_of_lt (by exact he)]
  simp only [Nat.shiftLeft_eq]
  omega

theorem toNat_unpackExponent (b : BitVec 64) : (@unpackExponent .binary64 b).toNat = b.toNat / 2 ^ 52 % 2 ^ 11 := by
  simp [unpackExponent, Nat.shiftRight_eq_div_pow]

theorem toNat_unpackMantissa (b : BitVec 64) : (@unpackMantissa .binary64 b).toNat = b.toNat % 2 ^ 52 := by
  simp [unpackMantissa]

theorem toNat_unpackSign (b : BitVec 64) :
    (Sign.ofBitVec (@unpackSign .binary64 b)).toBitVec.toNat = b.toNat / 2 ^ 63 := by
  have hb := b.isLt
  have hbit : ∀ v : BitVec 1, (Sign.ofBitVec v).toBitVec = v := by decide
  rw [hbit]
  simp only [unpackSign, BitVec.toNat_cast, BitVec.extractLsb_toNat, Nat.shiftRight_eq_div_pow]
  omega

/-- A pattern is its three fields. -/
theorem packComponents_unpack (b : BitVec 64) :
    packComponents .binary64 (Sign.ofBitVec (@unpackSign .binary64 b)) (@unpackExponent .binary64 b)
      (@unpackMantissa .binary64 b) = b := by
  apply BitVec.eq_of_toNat_eq
  rw [toNat_packComponents, toNat_unpackSign, toNat_unpackExponent, toNat_unpackMantissa]
  have hb := b.isLt
  omega

/-- A mantissa with all its binary digits is written without the first one. -/
theorem pack_normal (s : Sign) {m : Nat} {e : Int} (hpos : 0 < m) (hlow : 2 ^ 52 ≤ m) (hhigh : m < 2 ^ 53)
    {field : Nat} (hfield : field < 2047) (he : e = field - 1075) :
    UnpackedFloat.pack .binary64 (.finite s m e hpos) =
      packComponents .binary64 s (BitVec.ofNat 11 field) (BitVec.ofNat 52 m) := by
  have hlog : m.log2 = 52 := by
    have hle := (Nat.le_log2 (by omega)).2 hlow
    have hlt := (Nat.log2_lt (by omega)).2 hhigh
    omega
  have hbiased : (e + Format.binary64.exponentBias + Format.binary64.mantissaBitsWithoutImplicit).toNat = field := by
    simp only [Format.exponentBias]
    omega
  simp only [UnpackedFloat.pack, hbiased, hlog]
  rw [if_neg (by omega), if_pos (show 52 + 1 = Format.binary64.mantissaBits from rfl)]

/-- A mantissa with fewer digits has the least exponent. -/
theorem pack_subnormal (s : Sign) {m : Nat} (hpos : 0 < m) (hhigh : m < 2 ^ 52) :
    UnpackedFloat.pack .binary64 (.finite s m (-1074) hpos) =
      packComponents .binary64 s 0#11 (BitVec.ofNat 52 m) := by
  have hlog : m.log2 < 52 := (Nat.log2_lt (by omega)).2 hhigh
  have hdigits : m.log2 + 1 ≠ Format.binary64.mantissaBits := by
    simp only [Format.mantissaBits]
    omega
  have hbiased : (-1074 + (Format.binary64.exponentBias : Int) +
      Format.binary64.mantissaBitsWithoutImplicit).toNat = 1 := rfl
  simp only [UnpackedFloat.pack, hbiased]
  rw [if_neg (by decide), if_neg hdigits]

/-- An unpacked finite double up to its sign: packing it writes the fields of the pattern with any sign. -/
theorem exists_unpack_finite {b : BitVec 64} (h : @unpackExponent .binary64 b ≠ -1#11) :
    ∃ shape : Sign → UnpackedFloat,
      UnpackedFloat.unpack .binary64 b = shape (Sign.ofBitVec (@unpackSign .binary64 b)) ∧
      (∀ s, (shape s).neg = shape (-s)) ∧
      ∀ s, UnpackedFloat.pack .binary64 (shape s) =
        packComponents .binary64 s (@unpackExponent .binary64 b) (@unpackMantissa .binary64 b) := by
  have hm : (@unpackMantissa .binary64 b).toNat < 2 ^ 52 := (@unpackMantissa .binary64 b).isLt
  have he : (@unpackExponent .binary64 b).toNat < 2 ^ 11 := (@unpackExponent .binary64 b).isLt
  by_cases hzero : @unpackExponent .binary64 b = 0#11
  · by_cases hnone : @unpackMantissa .binary64 b = 0#52
    · refine ⟨.zero, ?_, fun s => rfl, fun s => ?_⟩
      · simp [UnpackedFloat.unpack, hzero, hnone]
      · rw [hzero, hnone]
        rfl
    · have hpos : 0 < (@unpackMantissa .binary64 b).toNat := by
        simpa [BitVec.toNat_pos, BitVec.pos_iff_ne_zero] using hnone
      refine ⟨fun s => .finite s (@unpackMantissa .binary64 b).toNat (-1074) hpos, ?_, fun s => rfl, fun s => ?_⟩
      · simp [UnpackedFloat.unpack, hzero, hnone, Format.exponentBias]
      · rw [pack_subnormal s hpos hm, hzero, BitVec.ofNat_toNat, BitVec.setWidth_eq]
  · have hfull : (1#1 ++ @unpackMantissa .binary64 b).toNat = 2 ^ 52 + (@unpackMantissa .binary64 b).toNat := by
      rw [BitVec.toNat_append, ← Nat.shiftLeft_add_eq_or_of_lt hm]
      simp [Nat.shiftLeft_eq]
    have hfield : (@unpackExponent .binary64 b).toNat < 2047 := by
      have hne : (@unpackExponent .binary64 b).toNat ≠ 2047 := fun heq => h (BitVec.eq_of_toNat_eq heq)
      omega
    refine ⟨fun s => .finite s (1#1 ++ @unpackMantissa .binary64 b).toNat
      ((@unpackExponent .binary64 b).toNat - 1075) (by omega), ?_, fun s => rfl, fun s => ?_⟩
    · simp only [UnpackedFloat.unpack, h, hzero, if_false]
      rfl
    · rw [pack_normal s (by omega) (by omega) (by omega) hfield rfl, hfull, BitVec.ofNat_toNat, BitVec.setWidth_eq]
      congr 1
      apply BitVec.eq_of_toNat_eq
      rw [BitVec.toNat_ofNat]
      omega

/-! ### Doubles and their patterns -/

theorem power_eq (base exponent : Nat) : power base exponent = base ^ exponent := rfl

theorem infinityBits_eq : infinityBits = 2047 * 2 ^ 52 := rfl

theorem float_eq_of_toBits {f g : Float} (h : f.toBits = g.toBits) : f = g := by
  obtain ⟨⟨a, ha⟩⟩ := f
  obtain ⟨⟨b, hb⟩⟩ := g
  obtain rfl : a = b := h
  rfl

/-- The pattern of a finite double does not have the greatest exponent. -/
theorem exponent_ne_of_lt {b : BitVec 64} (h : b.toNat % 2 ^ 63 < infinityBits) : @unpackExponent .binary64 b ≠ -1#11 := by
  intro heq
  have hfield := congrArg BitVec.toNat heq
  rw [toNat_unpackExponent, show (-1#11).toNat = 2047 from rfl] at hfield
  rw [infinityBits_eq] at h
  omega

theorem toBits_ofBits {a : UInt64} (h : a.toNat % 2 ^ 63 < infinityBits) : (Float.ofBits a).toBits = a := by
  obtain ⟨shape, hshape, -, hpack⟩ := exists_unpack_finite (exponent_ne_of_lt (b := a.toBitVec) h)
  have hbits : (Float.ofBits a).toBits = UInt64.ofBitVec (UnpackedFloat.pack .binary64
    (UnpackedFloat.unpack .binary64 a.toBitVec)) := rfl
  rw [hbits, hshape, hpack, packComponents_unpack]

/-- Negation changes the sign of a finite double. -/
theorem toNat_toBits_neg {f : Float} (h : f.toBits.toNat % 2 ^ 63 < infinityBits) :
    (-f).toBits.toNat = (1 - f.toBits.toNat / 2 ^ 63) * 2 ^ 63 + f.toBits.toNat % 2 ^ 63 := by
  obtain ⟨shape, hshape, hneg, hpack⟩ := exists_unpack_finite (exponent_ne_of_lt (b := f.toBits.toBitVec) h)
  have hbits : (-f).toBits = UInt64.ofBitVec (UnpackedFloat.pack .binary64
    (UnpackedFloat.unpack .binary64 f.toBits.toBitVec).neg) := rfl
  have hsign : ∀ s : Sign, (-s).toBitVec.toNat = 1 - s.toBitVec.toNat := by
    intro s
    cases s <;> rfl
  rw [hbits, hshape, hneg, hpack, UInt64.toNat_ofBitVec, toNat_packComponents, hsign, toNat_unpackSign,
    toNat_unpackExponent, toNat_unpackMantissa, UInt64.toNat_toBitVec]
  omega

/-- The pattern of a sign and a magnitude. -/
def signedBits (negative : Bool) (bits : Nat) : Nat := negative.toNat * 2 ^ 63 + bits

theorem floatOfMagnitude_eq (negative : Bool) (bits : Nat) :
    floatOfMagnitude negative bits = Float.ofBits (UInt64.ofNat (signedBits negative bits)) := by
  cases negative <;> simp [floatOfMagnitude, signedBits, power_eq]

theorem signedBits_parts (negative : Bool) {bits : Nat} (h : bits < infinityBits) :
    signedBits negative bits % 2 ^ 63 = bits ∧ signedBits negative bits / 2 ^ 63 = negative.toNat := by
  have hbound := infinityBits_eq
  unfold signedBits
  omega

theorem toNat_toBits_floatOfMagnitude (negative : Bool) {bits : Nat} (h : bits < infinityBits) :
    (floatOfMagnitude negative bits).toBits.toNat = signedBits negative bits := by
  have hsign := negative.toNat_le
  obtain ⟨hlow, hhigh⟩ := signedBits_parts negative h
  have hword : (UInt64.ofNat (signedBits negative bits)).toNat = signedBits negative bits := by
    rw [UInt64.toNat_ofNat', Nat.mod_eq_of_lt (by omega)]
  rw [floatOfMagnitude_eq, toBits_ofBits, hword]
  rw [hword, hlow]
  exact h

theorem magnitudeOfFloat_eq (f : Float) :
    magnitudeOfFloat f = (decide (2 ^ 63 ≤ f.toBits.toNat), f.toBits.toNat % 2 ^ 63) := rfl

/-- A sign and a magnitude below infinity are those of a double. -/
theorem magnitudeOfFloat_floatOfMagnitude (negative : Bool) {bits : Nat} (h : bits < infinityBits) :
    magnitudeOfFloat (floatOfMagnitude negative bits) = (negative, bits) := by
  obtain ⟨hlow, hhigh⟩ := signedBits_parts negative h
  have hsign : (2 ^ 63 ≤ signedBits negative bits) ↔ negative = true := by
    cases negative <;> simp only [Bool.toNat_true, Bool.toNat_false] at hhigh <;> simp <;> omega
  rw [magnitudeOfFloat_eq, toNat_toBits_floatOfMagnitude negative h, hlow]
  simp only [hsign, Bool.decide_eq_true]

/-- A finite double is its sign and its magnitude. -/
theorem floatOfMagnitude_magnitudeOfFloat {f : Float} (h : (magnitudeOfFloat f).2 < infinityBits) :
    floatOfMagnitude (magnitudeOfFloat f).1 (magnitudeOfFloat f).2 = f := by
  have hword := f.toBits.toNat_lt
  apply float_eq_of_toBits
  apply UInt64.toNat.inj
  rw [toNat_toBits_floatOfMagnitude _ h]
  rw [magnitudeOfFloat_eq, signedBits]
  by_cases hsign : 2 ^ 63 ≤ f.toBits.toNat
  · rw [decide_eq_true hsign, Bool.toNat_true]
    omega
  · rw [decide_eq_false hsign, Bool.toNat_false]
    omega

theorem neg_floatOfMagnitude (negative : Bool) {bits : Nat} (h : bits < infinityBits) :
    -floatOfMagnitude negative bits = floatOfMagnitude (!negative) bits := by
  have hbits := toNat_toBits_floatOfMagnitude negative h
  obtain ⟨hlow, hhigh⟩ := signedBits_parts negative h
  apply float_eq_of_toBits
  apply UInt64.toNat.inj
  rw [toNat_toBits_neg (by rw [hbits, hlow]; exact h), hbits, hlow, hhigh, toNat_toBits_floatOfMagnitude _ h]
  cases negative <;> rfl

end Shading.Number
