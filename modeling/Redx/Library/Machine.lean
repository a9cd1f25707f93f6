import Mathlib.Algebra.Group.Int.Defs
import Mathlib.Algebra.Group.Nat.Defs
import Mathlib.Data.Int.Basic

/-!
# Machine integers

What is left of a number that is stored in an `int` or in a `size_t`.
-/
namespace Redx.Library

/-- The value of an `int` that a number is stored in. -/
def toInt (x : ℤ) : ℤ := Int.bmod x (2 ^ 32)

/-- The value of a `long` that a number is stored in. -/
def toLong (x : ℤ) : ℤ := Int.bmod x (2 ^ 64)

/-- The value of a `size_t` that a number is stored in. -/
def toSize (x : ℤ) : ℕ := (x % 2 ^ 64).toNat

variable {x : ℤ}

theorem toInt_of_lt (h : x % 2 ^ 32 < 2 ^ 31) : toInt x = x % 2 ^ 32 := by
  rw [toInt, Int.bmod_def, if_pos (by simpa using h)]
  simp

theorem toInt_of_ge (h : 2 ^ 31 ≤ x % 2 ^ 32) : toInt x = x % 2 ^ 32 - 2 ^ 32 := by
  rw [toInt, Int.bmod_def, if_neg (by simpa using h)]
  simp

theorem toInt_emod (x : ℤ) : toInt x % 2 ^ 32 = x % 2 ^ 32 := Int.bmod_emod

theorem toInt_range (x : ℤ) : -2 ^ 31 ≤ toInt x ∧ toInt x < 2 ^ 31 := by
  have hle := Int.le_bmod (x := x) (m := 2 ^ 32) (by decide)
  have hlt := Int.bmod_lt (x := x) (m := 2 ^ 32) (by decide)
  unfold toInt
  omega

theorem toInt_eq_self (h₀ : -2 ^ 31 ≤ x) (h : x < 2 ^ 31) : toInt x = x :=
  Int.bmod_eq_of_le_mul_two (by omega) (by omega)

theorem toLong_range (x : ℤ) : -2 ^ 63 ≤ toLong x ∧ toLong x < 2 ^ 63 := by
  have hle := Int.le_bmod (x := x) (m := 2 ^ 64) (by decide)
  have hlt := Int.bmod_lt (x := x) (m := 2 ^ 64) (by decide)
  unfold toLong
  omega

theorem toLong_eq_self (h₀ : -2 ^ 63 ≤ x) (h : x < 2 ^ 63) : toLong x = x :=
  Int.bmod_eq_of_le_mul_two (by omega) (by omega)

theorem toSize_eq_self (h₀ : 0 ≤ x) (h : x < 2 ^ 64) : toSize x = x.toNat := by
  rw [toSize, Int.emod_eq_of_lt h₀ h]

theorem toSize_of_neg (h₀ : -2 ^ 64 ≤ x) (h : x < 0) : (toSize x : ℤ) = x + 2 ^ 64 := by
  unfold toSize
  omega

/-- A `size_t` keeps every `int` apart from 0. -/
theorem toSize_toInt_ne_zero (h : x % 2 ^ 32 ≠ 0) : toSize (toInt x) ≠ 0 := by
  by_cases hlt : x % 2 ^ 32 < 2 ^ 31
  · rw [toInt_of_lt hlt, toSize_eq_self (by omega) (by omega)]
    omega
  · have hneg := toInt_of_ge (Int.not_lt.mp hlt)
    have := toSize_of_neg (x := toInt x) (by omega) (by omega)
    omega

end Redx.Library
