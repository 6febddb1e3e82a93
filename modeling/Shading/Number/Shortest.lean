import Shading.Number.Binary64

/-!
# The shortest decimal of a double

Among the decimals that read back as a given double the shortest one is chosen, and of several of
that length the nearest. With one digit, then two, and so on, the two neighbours of the double on the
decimal grid are tried; the first grid with a neighbour that rounds to the double settles the digits.
-/

namespace Shading.Number

/-- The value `digits * 10 ^ exponent`. -/
structure Decimal where
  digits : Nat
  exponent : Int
deriving DecidableEq

/-- The reals that round to a double, in exact numbers over one denominator: the value itself, the two
ends, and whether the ends belong to them. -/
structure RoundingInterval where
  value : Nat
  low : Nat
  high : Nat
  denominator : Nat
  closed : Bool

/-- The rounding interval of a positive double. The gap below a power of two is half as wide. -/
def RoundingInterval.of (b : Binary) : RoundingInterval :=
  let narrow := b.mantissa = power 2 52 ∧ b.exponent > Binary.leastExponent
  let unit := b.exponent - 2
  let scale := power 2 unit.toNat
  { value := 4 * b.mantissa * scale
    low := (4 * b.mantissa - (if narrow then 1 else 2)) * scale
    high := (4 * b.mantissa + 2) * scale
    denominator := power 2 (-unit).toNat
    closed := b.mantissa % 2 = 0 }

/-- The decimal lies in the interval. -/
def RoundingInterval.holds (i : RoundingInterval) (d : Decimal) : Bool :=
  let up := power 10 d.exponent.toNat
  let down := power 10 (-d.exponent).toNat
  let x := d.digits * up * i.denominator
  let low := i.low * down
  let high := i.high * down
  if i.closed then decide (low ≤ x) && decide (x ≤ high)
  else decide (low < x) && decide (x < high)

/-- The value in whole units of ten to the exponent, and what is left over and the unit it is measured
against. -/
def RoundingInterval.onGrid (i : RoundingInterval) (exponent : Int) : Nat × Nat × Nat :=
  let num := i.value * power 10 (-exponent).toNat
  let den := i.denominator * power 10 exponent.toNat
  (num / den, num % den, den)

/-- The number of decimal digits of a whole number; zero has none. -/
def digitCount (n : Nat) : Nat := if n = 0 then 0 else (Nat.toDigits 10 n).length

/-- The decimal exponent of the value's first digit. -/
def RoundingInterval.leadingExponent (i : RoundingInterval) : Int :=
  if i.denominator ≤ i.value then (digitCount (i.value / i.denominator) : Int) - 1
  else -(digitCount ((i.denominator + i.value - 1) / i.value - 1) : Int)

/-- The nearer one of the value's two grid neighbours that lie in the interval, if any does; at equal
distance the even one. -/
def RoundingInterval.neighbour? (i : RoundingInterval) (exponent : Int) : Option Decimal :=
  let (low, rest, den) := i.onGrid exponent
  let below : Decimal := ⟨low, exponent⟩
  let above : Decimal := ⟨low + 1, exponent⟩
  match i.holds below, i.holds above with
  | true, true =>
    if 2 * rest < den ∨ (2 * rest = den ∧ low % 2 = 0) then some below else some above
  | true, false => some below
  | false, true => some above
  | false, false => none

/-- Tries the grids from `exponent` downwards, `steps` of them. -/
def RoundingInterval.search (i : RoundingInterval) : (steps : Nat) → (exponent : Int) → Decimal
  | 0, exponent => ⟨(i.onGrid exponent).1, exponent⟩
  | n + 1, exponent =>
    match i.neighbour? exponent with
    | some d => d
    | none => i.search n (exponent - 1)

/-- The shortest decimal that reads back as a positive double; seventeen digits always do. -/
def shortestDecimal (b : Binary) : Decimal :=
  let i := RoundingInterval.of b
  i.search 17 i.leadingExponent

/-- How a double is written: which decimal exponents of the first digit are written positionally, and
the texts of what is no number. -/
structure FloatFormat where
  leastPositional : Int
  firstScientific : Int
  minExponentDigits : Nat
  nan : String
  positiveInfinity : String
  negativeInfinity : String

def trimZeros (digits : List Char) : List Char :=
  (digits.reverse.dropWhile (· == '0')).reverse

/-- The digits of a positive decimal, and the exponent of the first of them. -/
def Decimal.layout (d : Decimal) : List Char × Int :=
  let digits := Nat.toDigits 10 d.digits
  (trimZeros digits, (digits.length : Int) - 1 + d.exponent)

def zeroPadded (width : Nat) (digits : List Char) : List Char :=
  List.replicate (width - digits.length) '0' ++ digits

/-- The digits of a decimal in scientific notation: a point behind the first digit if more follow, and
the exponent with its sign. -/
def FloatFormat.scientific (fmt : FloatFormat) (digits : List Char) (exponent : Int) : List Char :=
  let fraction := digits.drop 1
  digits.take 1 ++ (if fraction.isEmpty then [] else '.' :: fraction)
    ++ ['e', if exponent < 0 then '-' else '+']
    ++ zeroPadded fmt.minExponentDigits (Nat.toDigits 10 exponent.natAbs)

/-- The digits of a decimal in positional notation; there is a point only if digits follow it. -/
def positional (digits : List Char) (exponent : Int) : List Char :=
  if exponent < 0 then
    ['0', '.'] ++ List.replicate (-exponent - 1).toNat '0' ++ digits
  else
    let whole := exponent.toNat + 1
    let fraction := digits.drop whole
    digits.take whole ++ List.replicate (whole - digits.length) '0'
      ++ (if fraction.isEmpty then [] else '.' :: fraction)

/-- The text of a finite magnitude's bit pattern. -/
def FloatFormat.magnitude (fmt : FloatFormat) (bits : Nat) : List Char :=
  if bits = 0 then ['0']
  else
    let (digits, exponent) := (shortestDecimal (Binary.ofMagnitudeBits bits)).layout
    if exponent < fmt.leastPositional ∨ exponent ≥ fmt.firstScientific then
      fmt.scientific digits exponent
    else positional digits exponent

def FloatFormat.text (fmt : FloatFormat) (f : Float) : String :=
  let (negative, bits) := magnitudeOfFloat f
  if bits > infinityBits then fmt.nan
  else if bits = infinityBits then
    if negative then fmt.negativeInfinity else fmt.positiveInfinity
  else String.ofList ((if negative then ['-'] else []) ++ fmt.magnitude bits)

end Shading.Number
