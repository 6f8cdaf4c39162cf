import Mathlib

/-! Rounding up to a multiple, and the lowest set bit of a number. -/
namespace ArmFirmware.Library

/-- The least multiple of `a` that is not below `x`. -/
def ceilTo (a x : ℕ) : ℕ := (x+(a-1))/a*a

variable {a g x M : ℕ}

lemma dvd_ceilTo (a x : ℕ) : a ∣ ceilTo a x := dvd_mul_left ..

lemma le_ceilTo (ha : 0 < a) : x ≤ ceilTo a x := by
  have := Nat.div_add_mod' (x+(a-1)) a
  have := Nat.mod_lt (x+(a-1)) ha
  unfold ceilTo
  omega

lemma ceilTo_lt (ha : 0 < a) : ceilTo a x < x+a := by
  have := Nat.div_mul_le_self (x+(a-1)) a
  unfold ceilTo
  omega

end ArmFirmware.Library
