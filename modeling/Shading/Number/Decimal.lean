import Shading.Number.Power

/-!
# Decimal integers

Whole numbers in decimal digits, with or without a sign, as they stand in settings.
-/

namespace Shading.Number

/-- The value of decimal digits, from the value of those before them. -/
def digitsValue? (acc : Nat) : List Char → Option Nat
  | [] => some acc
  | c :: cs => if c.isDigit then digitsValue? (10 * acc + (c.toNat - 48)) cs else none

/-- The value of one or more decimal digits. -/
def natural? : List Char → Option Nat
  | [] => none
  | cs => digitsValue? 0 cs

/-- The number of an optional sign and decimal digits, if it fits into 64 bits. -/
def decimal? (s : String) : Option Int :=
  let n? : Option Int := match s.toList with
    | '-' :: cs => (natural? cs).map fun n => -(n : Int)
    | '+' :: cs => (natural? cs).map fun n => (n : Int)
    | cs => (natural? cs).map fun n => (n : Int)
  n?.filter fun n => decide (-(power 2 63 : Int) ≤ n) && decide (n < (power 2 63 : Int))

end Shading.Number
