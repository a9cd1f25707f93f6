import Mathlib.Data.List.Pairwise

/-!
# Address ranges

A region is a half-open range of addresses. Regions handed out one after another, each apart
from all the earlier ones, are pairwise apart.
-/
namespace Redx.Library

/-- The addresses from `base` up to, and without, `base + length`. -/
structure Region where
  base : ℕ
  length : ℕ
  deriving DecidableEq, Repr

namespace Region

/-- Address `a` lies in the region. -/
def Contains (r : Region) (a : ℕ) : Prop := r.base ≤ a ∧ a < r.base + r.length

/-- Neither region reaches into the other. -/
def Apart (r s : Region) : Prop := r.base + r.length ≤ s.base ∨ s.base + s.length ≤ r.base

/-- Every address of `s` is one of `r`. -/
def Covers (r s : Region) : Prop := r.base ≤ s.base ∧ s.base + s.length ≤ r.base + r.length

instance (r : Region) (a : ℕ) : Decidable (r.Contains a) := by unfold Contains; infer_instance
instance (r s : Region) : Decidable (r.Apart s) := by unfold Apart; infer_instance
instance (r s : Region) : Decidable (r.Covers s) := by unfold Covers; infer_instance

variable {r s t : Region} {a : ℕ}

theorem Apart.symm (h : r.Apart s) : s.Apart r := h.elim .inr .inl

theorem Apart.not_contains (h : r.Apart s) (hr : r.Contains a) : ¬ s.Contains a := by
  simp only [Apart, Contains] at *
  omega

theorem Apart.of_covers (h : r.Apart s) {r' s' : Region} (hr : r.Covers r') (hs : s.Covers s') :
    r'.Apart s' := by
  simp only [Apart, Covers] at *
  omega

/-- Regions apart from each other that are not empty start at different addresses. -/
theorem Apart.base_ne (h : r.Apart s) (hr : 0 < r.length) (hs : 0 < s.length) :
    r.base ≠ s.base := by
  simp only [Apart] at h
  omega

/-- Elements of equal length, laid out one after another, are apart. -/
theorem apart_elements {base n i j : ℕ} (hij : i ≠ j) :
    Apart ⟨base + i * n, n⟩ ⟨base + j * n, n⟩ := by
  rcases Nat.lt_or_gt_of_ne hij with h | h
  · have := Nat.mul_le_mul_right n h
    rw [Nat.succ_mul] at this
    exact .inl (by dsimp only; omega)
  · have := Nat.mul_le_mul_right n h
    rw [Nat.succ_mul] at this
    exact .inr (by dsimp only; omega)

theorem covers_element {base n i count : ℕ} (hi : i < count) :
    Covers ⟨base, n * count⟩ ⟨base + i * n, n⟩ := by
  have := Nat.mul_le_mul_right n hi
  rw [Nat.succ_mul, Nat.mul_comm count] at this
  exact ⟨by dsimp only; omega, by dsimp only; omega⟩

end Region
end Redx.Library
