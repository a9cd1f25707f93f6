import Redx.Library.Run
import Mathlib.Algebra.BigOperators.Group.List.Basic
import Mathlib.Algebra.GroupWithZero.Nat

/-!
# Peaks

The greatest load of a run. When capacity comes in blocks, is never given back, and grows by a
block only under a full load, the number of blocks is the peak divided by the size of a block,
rounded up.
-/
namespace Redx.Library

variable {σ ε : Type*}

/-- The greatest value of `load` in the states of the run, the last one included. -/
def peak (load : σ → ℕ) (h : List (σ × ε)) (s : σ) : ℕ :=
  h.foldr (fun x m => max (load x.1) m) (load s)

theorem peak_append_singleton {load : σ → ℕ} {h : List (σ × ε)} {s t : σ} {e : ε} :
    peak load (h ++ [(s, e)]) t = max (peak load h s) (load t) := by
  induction h with
  | nil => rfl
  | cons x h ih =>
    change max (load x.1) (peak load (h ++ [(s, e)]) t) = max (max (load x.1) (peak load h s)) _
    rw [ih, Nat.max_assoc]

/-- Blocks of `size` each, of which a step adds one at most, and that only when all are taken;
`I s b` says that there are `b` of them in `s`. -/
theorem Run.blocks_eq {step : σ → ε → σ → Prop} {s₀ s : σ} {h : List (σ × ε)} {I : σ → ℕ → Prop}
    {load : σ → ℕ} {size : ℕ} (hsize : 0 < size) (h₀ : I s₀ 0)
    (hfits : ∀ s b, I s b → load s ≤ size * b)
    (hgrow : ∀ s e t b, I s b → step s e t → I t b ∨ I t (b + 1) ∧ load t = size * b + 1)
    (hr : Run step s₀ h s) : I s ((peak load h s + size - 1) / size) := by
  obtain ⟨b, hb, hle, hlt⟩ : ∃ b, I s b ∧ peak load h s ≤ size * b ∧
      size * b < peak load h s + size := by
    induction hr with
    | start => exact ⟨0, h₀, hfits _ _ h₀, Nat.add_pos_right _ hsize⟩
    | @next h s t e hr hs ih =>
      obtain ⟨b, hb, hle, hlt⟩ := ih
      rw [peak_append_singleton]
      rcases hgrow _ _ _ _ hb hs with hsame | ⟨hmore, hfull⟩
      · have hload := hfits _ _ hsame
        exact ⟨b, hsame, by omega, by omega⟩
      · refine ⟨b + 1, hmore, ?_⟩
        rw [hfull, Nat.mul_add, Nat.mul_one]
        omega
  have hb' : (peak load h s + size - 1) / size = b := by
    refine Nat.div_eq_of_lt_le ?_ ?_
    · rw [Nat.mul_comm]
      omega
    · rw [Nat.mul_comm, Nat.mul_add, Nat.mul_one]
      omega
  exact hb' ▸ hb

variable {α β : Type*}

theorem sum_map_ite (p : β → Bool) (l : List β) :
    (l.map fun b => if p b then 1 else 0).sum = l.countP p := by
  induction l with
  | nil => rfl
  | cons b l ih => rw [List.map_cons, List.sum_cons, List.countP_cons, ih, Nat.add_comm]

/-- When each element that is counted falls in one class, and no other in any, the classes'
counts add up. -/
theorem countP_eq_sum {counted : α → Bool} {falls : β → α → Bool} {classes : List β} {l : List α}
    (h : ∀ a ∈ l, classes.countP (falls · a) = if counted a then 1 else 0) :
    l.countP counted = (classes.map fun b => l.countP (falls b)).sum := by
  induction l with
  | nil => simp
  | cons a l ih =>
    simp only [List.countP_cons, List.sum_map_add]
    rw [sum_map_ite, h a List.mem_cons_self, ih fun b hb => h b (List.mem_cons_of_mem _ hb)]

end Redx.Library
