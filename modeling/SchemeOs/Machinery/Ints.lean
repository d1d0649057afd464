import Mathlib

/-!
# Machinery/Ints — the signed integer types

A value is converted to a signed type of `w` bits by taking the one in its range that differs from
it by a multiple of `2 ^ w`.  A value that the type holds is not changed.
-/

namespace SchemeOs

variable {k : ℤ}

/-- `(short) n` -/
def toShort (n : ℤ) : ℤ := (n + 2 ^ 15) % 2 ^ 16 - 2 ^ 15

/-- `(int) n` -/
def toInt (n : ℤ) : ℤ := (n + 2 ^ 31) % 2 ^ 32 - 2 ^ 31

/-- A value of type `int`. -/
def IsInt (n : ℤ) : Prop := -2 ^ 31 ≤ n ∧ n < 2 ^ 31

instance (n : ℤ) : Decidable (IsInt n) := inferInstanceAs (Decidable (_ ∧ _))

theorem toShort_eq (hl : -2 ^ 15 ≤ k) (hu : k < 2 ^ 15) : toShort k = k := by
  unfold toShort
  omega

theorem toInt_eq (hl : -2 ^ 31 ≤ k) (hu : k < 2 ^ 31) : toInt k = k := by
  unfold toInt
  omega

theorem toShort_lt (k : ℤ) : toShort k < 2 ^ 15 := by
  unfold toShort
  omega

end SchemeOs
