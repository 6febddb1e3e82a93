/-!
# Powers of whole numbers

The scales of binary and decimal numbers, and the bounds of machine words.
-/

namespace Shading.Number

/-- The product of as many copies of the base as the exponent says. -/
def power (base exponent : Nat) : Nat := Nat.pow base exponent

theorem power_succ (base exponent : Nat) : power base (exponent + 1) = power base exponent * base := rfl

theorem power_pos {base : Nat} (h : 0 < base) (exponent : Nat) : 0 < power base exponent := by
  induction exponent with
  | zero => exact Nat.one_pos
  | succ k ih => rw [power_succ]; exact Nat.mul_pos ih h

end Shading.Number
