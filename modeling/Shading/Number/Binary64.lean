import Shading.Number.Power

/-!
# Doubles as exact numbers

A positive finite double is `m * 2 ^ q` with a whole number `m` below `2 ^ 53` and an exponent `q`
of at least `-1074`. Its bit pattern is the number `(q + 1074) * 2 ^ 52 + m`, for subnormal numbers too,
because the leading bit of a normal `m` carries into the exponent field. Rounding a quotient of whole
numbers goes to the nearest double, a half going to the even mantissa.
-/

namespace Shading.Number

/-- The exact value `mantissa * 2 ^ exponent`. -/
structure Binary where
  mantissa : Nat
  exponent : Int
deriving DecidableEq

namespace Binary

def leastExponent : Int := -1074

/-- The magnitude of a finite double, from its bit pattern without the sign. -/
def ofMagnitudeBits (bits : Nat) : Binary :=
  let field : Nat := bits / power 2 52
  let fraction : Nat := bits % power 2 52
  if field = 0 then ⟨fraction, leastExponent⟩ else ⟨fraction + power 2 52, leastExponent - 1 + field⟩

/-- The bit pattern of the magnitude, without the sign. -/
def magnitudeBits (b : Binary) : Nat :=
  (b.exponent - leastExponent).toNat * power 2 52 + b.mantissa

end Binary

/-- The bit pattern of positive infinity; the finite magnitudes are those below it. -/
def infinityBits : Nat := 0x7FF * power 2 52

/-- The whole number nearest to a quotient; a half goes to the even neighbour. -/
def divNearestEven (num den : Nat) : Nat :=
  let low := num / den
  let rest := num % den
  if 2 * rest > den ∨ (2 * rest = den ∧ low % 2 = 1) then low + 1 else low

/-- The quotient `num / den` counted in units of `2 ^ q`, as a fraction. -/
def scaleBinary (num den : Nat) (q : Int) : Nat × Nat :=
  if 0 ≤ q then (num, den * power 2 q.toNat) else (num * power 2 (-q).toNat, den)

/-- The exponent of the double nearest to a positive quotient: the quotient counted in units of two to
that exponent has 53 binary digits, or fewer where the exponent is the least one. -/
def exponentFor (num den : Nat) : Int :=
  let guess : Int := (Nat.log2 num : Int) - (Nat.log2 den : Int) - 53
  let (n, d) := scaleBinary num den guess
  max (if n / d < power 2 53 then guess else guess + 1) Binary.leastExponent

/-- The double nearest to the quotient of two whole numbers, as a magnitude's bit pattern; the
pattern reaches `infinityBits` when the quotient is beyond the greatest double. -/
def roundQuotient (num den : Nat) : Nat :=
  if num = 0 then 0
  else
    let q := exponentFor num den
    let (n, d) := scaleBinary num den q
    Binary.magnitudeBits ⟨divNearestEven n d, q⟩

/-- The double with the given sign and magnitude. -/
def floatOfMagnitude (negative : Bool) (bits : Nat) : Float :=
  Float.ofBits (UInt64.ofNat ((if negative then power 2 63 else 0) + bits))

def floatOfInt (i : Int) : Float := floatOfMagnitude (decide (i < 0)) (roundQuotient i.natAbs 1)

/-- The sign and the magnitude of a double's bit pattern. -/
def magnitudeOfFloat (f : Float) : Bool × Nat :=
  let bits := f.toBits.toNat
  (power 2 63 ≤ bits, bits % power 2 63)

end Shading.Number
