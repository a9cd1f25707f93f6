import Mathlib.Algebra.GroupWithZero.Nat
import Mathlib.Data.List.FinRange

/-!
# Bitmaps over machine words

A map of `n` words of `w` bits holds bit `k` in word `k / w` at position `k % w`. The lemmas
give the bits after one bit was cleared or set through a mask, and the bit that a scan of the
words from the lowest position finds first.
-/
namespace Redx.Library.Bitmap

variable {n w : ℕ}

theorem mask_bit {b j : ℕ} (hb : b < w) : (1#w <<< b).getLsbD j = decide (j = b) := by
  rw [BitVec.getLsbD_shiftLeft]
  have hw : 0 < w := by omega
  by_cases hj : j = b
  · subst hj
    simp [hb, hw]
  · by_cases hlt : j < b
    · simp [hlt, hj]
    · have : j - b ≠ 0 := by omega
      simp [hj, BitVec.getLsbD_one, this]

/-- A word meets the mask of one bit exactly when it has that bit. -/
theorem and_mask_eq_zero {m : BitVec w} {b : ℕ} (hb : b < w) :
    m &&& (1#w <<< b) = 0#w ↔ m.getLsbD b = false := by
  constructor
  · intro h
    have := congrArg (fun v => v.getLsbD b) h
    simpa [BitVec.getLsbD_and, mask_bit hb] using this
  · intro h
    apply BitVec.eq_of_getLsbD_eq
    intro j _
    rw [BitVec.getLsbD_and, mask_bit hb]
    by_cases hj : j = b
    · simp [hj, h]
    · simp [hj]

/-- Bit `k` of the map. -/
def test (map : Fin n → BitVec w) (k : ℕ) : Bool :=
  if h : k / w < n then (map ⟨k / w, h⟩).getLsbD (k % w) else false

/-- The map with the bit at position `b` of word `i` cleared. -/
def clear (map : Fin n → BitVec w) (i : Fin n) (b : ℕ) : Fin n → BitVec w :=
  Function.update map i (map i &&& ~~~(1#w <<< b))

/-- The map with the bit at position `b` of word `i` set. -/
def set (map : Fin n → BitVec w) (i : Fin n) (b : ℕ) : Fin n → BitVec w :=
  Function.update map i (map i ||| (1#w <<< b))

variable {map : Fin n → BitVec w}

theorem test_at {i : Fin n} {b : ℕ} (hb : b < w) : test map (i * w + b) = (map i).getLsbD b := by
  have hw : 0 < w := by omega
  have hq : (i * w + b) / w = i := by
    rw [Nat.mul_comm, Nat.mul_add_div hw, Nat.div_eq_of_lt hb, Nat.add_zero]
  have hr : (i * w + b) % w = b := by
    rw [Nat.mul_comm, Nat.mul_add_mod, Nat.mod_eq_of_lt hb]
  simp only [test, hq, i.isLt, dif_pos, hr]

theorem test_out {k : ℕ} (hk : n * w ≤ k) : test map k = false := by
  unfold test
  split
  · rename_i h
    rcases Nat.eq_zero_or_pos w with rfl | hw
    · exact BitVec.getLsbD_of_ge _ _ (Nat.zero_le _)
    · have := (Nat.div_lt_iff_lt_mul hw).mp h
      omega
  · rfl

/-- The word and position of a bit of the map. -/
theorem exists_word {k : ℕ} (hk : k < n * w) : ∃ (i : Fin n) (b : ℕ), b < w ∧ k = i * w + b := by
  have hw : 0 < w := Nat.pos_of_ne_zero (by rintro rfl; simp at hk)
  refine ⟨⟨k / w, ?_⟩, k % w, Nat.mod_lt _ hw, ?_⟩
  · exact Nat.div_lt_of_lt_mul (by rwa [Nat.mul_comm] at hk)
  · rw [Nat.mul_comm]
    exact (Nat.div_add_mod k w).symm

theorem word_unique {i j b c : ℕ} (hb : b < w) (hc : c < w) :
    i * w + b = j * w + c ↔ i = j ∧ b = c := by
  constructor
  · intro h
    have hw : 0 < w := by omega
    have hq := congrArg (· / w) h
    have hr := congrArg (· % w) h
    simp only [Nat.mul_comm _ w, Nat.mul_add_div hw, Nat.mul_add_mod, Nat.div_eq_of_lt hb,
      Nat.div_eq_of_lt hc, Nat.mod_eq_of_lt hb, Nat.mod_eq_of_lt hc] at hq hr
    exact ⟨by omega, hr⟩
  · rintro ⟨rfl, rfl⟩
    rfl

/-- Clearing a bit clears that bit of the map and no other. -/
theorem test_clear {i : Fin n} {b k : ℕ} (hb : b < w) :
    test (clear map i b) k = (test map k && decide (k ≠ i * w + b)) := by
  by_cases hk : k < n * w
  · obtain ⟨j, c, hc, rfl⟩ := exists_word hk
    rw [test_at hc, test_at hc, clear]
    by_cases hj : j = i
    · subst hj
      rw [Function.update_self, BitVec.getLsbD_and, BitVec.getLsbD_not, mask_bit hb]
      simp [hc]
    · rw [Function.update_of_ne hj]
      have : (j : ℕ) ≠ i := fun h => hj (Fin.ext h)
      simp [word_unique hc hb, this]
  · rw [test_out (by omega), test_out (by omega)]
    rfl

/-- Setting a bit sets that bit of the map and no other. -/
theorem test_set {i : Fin n} {b k : ℕ} (hb : b < w) :
    test (set map i b) k = (test map k || decide (k = i * w + b)) := by
  by_cases hk : k < n * w
  · obtain ⟨j, c, hc, rfl⟩ := exists_word hk
    rw [test_at hc, test_at hc, set]
    by_cases hj : j = i
    · subst hj
      rw [Function.update_self, BitVec.getLsbD_or, mask_bit hb]
      simp
    · rw [Function.update_of_ne hj]
      have : (j : ℕ) ≠ i := fun h => hj (Fin.ext h)
      simp [word_unique hc hb, this]
  · have hlt : (i : ℕ) * w + b < n * w := by
      have := Nat.mul_le_mul_right w i.isLt
      rw [Nat.succ_mul] at this
      omega
    rw [test_out (by omega), test_out (by omega)]
    simp only [Bool.false_or]
    exact (decide_eq_false (by omega)).symm

/-- The bits of the map are those of its words, one word after the other. -/
theorem countP_test (map : Fin n → BitVec w) : (List.range (n * w)).countP (test map) =
    ((List.finRange n).map fun i => (List.range w).countP (map i).getLsbD).sum := by
  have hrange : ∀ m, List.range (m * w) =
      (List.finRange m).flatMap fun i => (List.range w).map (i.val * w + ·) := by
    intro m
    induction m with
    | zero => simp
    | succ m ih =>
      rw [Nat.succ_mul, List.range_add, ih, List.finRange_succ_last, List.flatMap_append,
        List.flatMap_map, List.flatMap_singleton]
      rfl
  rw [hrange, List.countP_flatMap]
  congr 1
  refine List.map_congr_left fun i _ => ?_
  rw [Function.comp_apply, List.countP_map]
  refine List.countP_congr fun b hb => ?_
  rw [Function.comp_apply, test_at (List.mem_range.mp hb)]

/-- A search through all indices from the lowest finds the least index with a result. -/
theorem findSome?_finRange {β : Type*} {f : Fin n → Option β} {x : β} :
    (List.finRange n).findSome? f = some x ↔
      ∃ i, f i = some x ∧ ∀ j < i, f j = none := by
  rw [List.findSome?_eq_some_iff]
  have hs := List.pairwise_lt_finRange n
  constructor
  · rintro ⟨l₁, i, l₂, hl, hi, hn⟩
    refine ⟨i, hi, ?_⟩
    intro j hj
    rw [hl, List.pairwise_append] at hs
    have hmem : j ∈ l₁ ++ i :: l₂ := hl ▸ List.mem_finRange j
    rcases List.mem_append.mp hmem with h | h
    · exact hn j h
    · rcases List.mem_cons.mp h with rfl | h
      · omega
      · have := (List.pairwise_cons.mp hs.2.1).1 j h
        omega
  · rintro ⟨i, hi, hn⟩
    obtain ⟨l₁, l₂, hl⟩ := List.append_of_mem (List.mem_finRange i)
    refine ⟨l₁, i, l₂, hl, hi, ?_⟩
    intro j hj
    rw [hl, List.pairwise_append] at hs
    exact hn j (hs.2.2 j hj i List.mem_cons_self)

/-- The scan that skips empty words and then tries the bits of a word from the lowest. -/
def firstSet (map : Fin n → BitVec w) : Option (Fin n × Fin w) :=
  (List.finRange n).findSome? fun i =>
    if map i = 0#w then none
    else (List.finRange w).findSome? fun b =>
      if map i &&& (1#w <<< b.val) = 0#w then none else some (i, b)

/-- Within one word the scan finds the lowest set bit. -/
theorem firstSet_word {i : Fin n} {x : Fin n × Fin w} :
    (if map i = 0#w then none
      else (List.finRange w).findSome? fun b =>
        if map i &&& (1#w <<< b.val) = 0#w then none else some (i, b)) = some x ↔
      x.1 = i ∧ (map i).getLsbD x.2 = true ∧ ∀ c < x.2, (map i).getLsbD c = false := by
  constructor
  · intro h
    split at h
    · cases h
    · obtain ⟨b, hb, hlow⟩ := findSome?_finRange.mp h
      split at hb
      · cases hb
      · rename_i hm
        obtain rfl : (i, b) = x := Option.some.inj hb
        refine ⟨rfl, ?_, ?_⟩
        · simpa [and_mask_eq_zero b.isLt] using hm
        · intro c hc
          have := hlow c hc
          split at this
          · rename_i hz
            exact (and_mask_eq_zero c.isLt).mp hz
          · cases this
  · rintro ⟨rfl, hset, hlow⟩
    rw [if_neg]
    · refine findSome?_finRange.mpr ⟨x.2, ?_, ?_⟩
      · rw [if_neg]
        rw [and_mask_eq_zero x.2.isLt, hset]
        simp
      · intro c hc
        rw [if_pos]
        exact (and_mask_eq_zero c.isLt).mpr (hlow c hc)
    · intro hz
      rw [hz] at hset
      simp at hset

/-- The scan finds a set bit, and all bits before it are clear. -/
theorem firstSet_spec {i : Fin n} {b : Fin w} (h : firstSet map = some (i, b)) :
    test map (i * w + b) = true ∧ ∀ k < i * w + b.val, test map k = false := by
  obtain ⟨j, hj, hlow⟩ := findSome?_finRange.mp h
  obtain ⟨rfl, hset, hbit⟩ := firstSet_word.mp hj
  refine ⟨by rw [test_at b.isLt]; exact hset, ?_⟩
  intro k hk
  have hkn : k < n * w := by
    have := Nat.mul_le_mul_right w i.isLt
    rw [Nat.succ_mul] at this
    omega
  obtain ⟨j, c, hc, rfl⟩ := exists_word hkn
  rw [test_at hc]
  by_cases hji : (j : ℕ) = i
  · obtain rfl : j = i := Fin.ext hji
    have hcb : c < b.val := by omega
    exact hbit ⟨c, hc⟩ hcb
  · have hlt : j < i := by
      by_contra hge
      have : (i : ℕ) + 1 ≤ j := by omega
      have := Nat.mul_le_mul_right w this
      rw [Nat.succ_mul] at this
      omega
    cases hb : (map j).getLsbD c with
    | false => rfl
    | true =>
      -- a set bit in an earlier word would have ended the scan there
      have hz := hlow j hlt
      split at hz
      · rename_i h0
        rw [h0] at hb
        simp at hb
      · rw [List.findSome?_eq_none_iff] at hz
        have := hz ⟨c, hc⟩ (List.mem_finRange _)
        split at this
        · rename_i h0
          rw [and_mask_eq_zero hc] at h0
          rw [h0] at hb
          cases hb
        · cases this

/-- The scan fails only on a map without a set bit. -/
theorem firstSet_eq_none : firstSet map = none ↔ ∀ k, test map k = false := by
  constructor
  · intro h k
    by_cases hk : k < n * w
    · obtain ⟨i, b, hb, rfl⟩ := exists_word hk
      rw [test_at hb]
      cases hbit : (map i).getLsbD b with
      | false => rfl
      | true =>
        have hi := List.findSome?_eq_none_iff.mp h i (List.mem_finRange i)
        split at hi
        · rename_i h0
          rw [h0] at hbit
          simp at hbit
        · have := List.findSome?_eq_none_iff.mp hi ⟨b, hb⟩ (List.mem_finRange _)
          split at this
          · rename_i h0
            rw [and_mask_eq_zero hb] at h0
            rw [h0] at hbit
            cases hbit
          · cases this
    · exact test_out (by omega)
  · intro h
    cases hf : firstSet map with
    | none => rfl
    | some x =>
      have := (firstSet_spec hf).1
      rw [h] at this
      cases this

end Redx.Library.Bitmap
