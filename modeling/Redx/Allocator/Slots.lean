import Redx.Allocator.Pool
import Mathlib.Tactic.Ring

/-!
# Slots of one pool

Which slot `take` hands out, and what its bits are afterwards; which objects the range test of
`free` admits, and which bit `release` sets.
-/
namespace Redx.Allocator
open Library

namespace MemPool

/-- The mapped zone of an initialised pool. -/
def zone (p : MemPool) : Region := ⟨p.start, p.size * count % 2 ^ 64⟩

/-- The map bit of slot `k`. -/
def isFree (p : MemPool) (k : ℕ) : Bool := Bitmap.test p.map k

/-- The address that `allocate` computes for slot `k`. -/
def slot (p : MemPool) (k : ℕ) : ℕ := (p.start + k * p.size) % 2 ^ 64

/-- Slot `k` is the first free one. -/
def FirstFree (p : MemPool) (k : ℕ) : Prop := p.isFree k = true ∧ ∀ j < k, p.isFree j = false

def firstFree (p : MemPool) : Option ℕ :=
  (Bitmap.firstSet p.map).map fun x => x.1.val * 32 + x.2.val

/-- A request for objects of size `n` passes this pool by. -/
def Passes (p : MemPool) (n : ℕ) : Prop := p.size = n → ∀ k, p.isFree k = false

/-- A pool as `initializePool` leaves it, all of its slots free. -/
def opened (size next start : ℕ) : MemPool :=
  { size := size, next := next, start := start, map := fun _ => 0xFFFFFFFF#32 }

theorem isFree_lt {p : MemPool} {k : ℕ} (h : p.isFree k = true) : k < count := by
  by_contra hk
  rw [isFree, Bitmap.test_out (by simp only [maps, count] at *; omega)] at h
  cases h

theorem FirstFree.unique {p : MemPool} {j k : ℕ} (hj : p.FirstFree j) (hk : p.FirstFree k) :
    j = k := by
  rcases Nat.lt_trichotomy j k with h | h | h
  · have := hk.2 j h
    rw [hj.1] at this
    cases this
  · exact h
  · have := hj.2 k h
    rw [hk.1] at this
    cases this

@[simp] theorem opened_isFree (n next start k : ℕ) :
    (opened n next start).isFree k = decide (k < count) := by
  by_cases hk : k < maps * 32
  · obtain ⟨i, b, hb, rfl⟩ := Bitmap.exists_word hk
    rw [isFree, Bitmap.test_at hb]
    have hbit : (0xFFFFFFFF#32).getLsbD b = true := by
      rw [show (0xFFFFFFFF#32) = BitVec.allOnes 32 from rfl, BitVec.getLsbD_allOnes]
      exact decide_eq_true hb
    rw [opened, hbit]
    exact (decide_eq_true (by simp only [maps, count] at *; omega)).symm
  · rw [isFree, Bitmap.test_out (by omega)]
    exact (decide_eq_false (by simp only [maps, count] at *; omega)).symm

theorem opened_firstFree (n next start : ℕ) : (opened n next start).FirstFree 0 :=
  ⟨by simp [count], by simp⟩

/-- `take` hands out the first free slot and clears its bit alone. -/
theorem take_eq_some {p p' : MemPool} {a : ℕ} (h : p.take = some (a, p')) :
    ∃ k, p.FirstFree k ∧ a = p.slot k ∧ p' = { p with map := p'.map } ∧
      ∀ j, p'.isFree j = (p.isFree j && decide (j ≠ k)) := by
  unfold take at h
  split at h
  · cases h
  · rename_i word bit hf
    obtain ⟨rfl, rfl⟩ := Prod.mk.inj (Option.some.inj h)
    obtain ⟨hset, hlow⟩ := Bitmap.firstSet_spec hf
    exact ⟨word.val * 32 + bit.val, ⟨hset, hlow⟩, rfl, rfl, fun j => Bitmap.test_clear bit.isLt⟩

theorem take_eq_none {p : MemPool} : p.take = none ↔ ∀ k, p.isFree k = false := by
  unfold take
  split
  · rename_i hf
    simpa [isFree] using Bitmap.firstSet_eq_none.mp hf
  · rename_i word bit hf
    constructor
    · intro h
      cases h
    · intro h
      have := (Bitmap.firstSet_spec hf).1
      rw [← isFree, h] at this
      cases this

theorem firstFree_eq_some {p : MemPool} {k : ℕ} : p.firstFree = some k ↔ p.FirstFree k := by
  rw [firstFree]
  cases hf : Bitmap.firstSet p.map with
  | none =>
    have hnone := Bitmap.firstSet_eq_none.mp hf
    refine ⟨nofun, fun h => ?_⟩
    have := h.1
    rw [isFree, hnone] at this
    cases this
  | some x =>
    have hx : p.FirstFree (x.1.val * 32 + x.2.val) := Bitmap.firstSet_spec hf
    rw [Option.map_some, Option.some.injEq]
    exact ⟨fun h => h ▸ hx, fun h => hx.unique h⟩

theorem firstFree_eq_none {p : MemPool} : p.firstFree = none ↔ ∀ k, p.isFree k = false := by
  rw [firstFree, Option.map_eq_none_iff]
  exact Bitmap.firstSet_eq_none

/-- A pool with a free slot serves the first one. -/
theorem FirstFree.take {p : MemPool} {k : ℕ} (h : p.FirstFree k) :
    ∃ p', p.take = some (p.slot k, p') ∧ p' = { p with map := p'.map } ∧
      ∀ j, p'.isFree j = (p.isFree j && decide (j ≠ k)) := by
  cases ht : p.take with
  | none =>
    have := take_eq_none.mp ht k
    rw [h.1] at this
    cases this
  | some x =>
    obtain ⟨j, hj, ha, hp, hbits⟩ := take_eq_some ht
    obtain rfl := hj.unique h
    exact ⟨x.2, by rw [← ha], hp, hbits⟩

theorem exists_firstFree {p : MemPool} {k : ℕ} (h : p.isFree k = true) : ∃ j, p.FirstFree j := by
  cases ht : p.take with
  | none =>
    have := take_eq_none.mp ht k
    rw [h] at this
    cases this
  | some x =>
    obtain ⟨j, hj, _⟩ := take_eq_some ht
    exact ⟨j, hj⟩

/-- The 32-bit length is the zone's length, reduced. -/
theorem length_le_zone (p : MemPool) : p.length ≤ p.zone.length := by
  simp only [length, zone, Nat.mul_comm count]
  omega

/-- The range test of an initialised pool admits the first `length` addresses of its zone. -/
theorem not_misses_iff {p : MemPool} {a : ℕ} (hpos : 0 < p.start)
    (hle : p.start + p.zone.length ≤ 2 ^ 64) :
    ¬ p.Misses a ↔ p.start ≤ a ∧ a < p.start + p.length := by
  have hlen := p.length_le_zone
  have hlast : p.last = p.start + p.length - 1 := by
    simp only [last]
    omega
  rw [Misses, hlast]
  omega

theorem length_lt (p : MemPool) : p.length < 2 ^ 32 := Nat.mod_lt _ (by decide)

theorem length_le (p : MemPool) : p.length ≤ count * p.size := Nat.mod_le ..

theorem release_at {p : MemPool} {a k : ℕ} (hsize : p.size ≠ 0)
    (hk : (a - p.start) % 2 ^ 32 / p.size = k) (hword : k / 32 < maps) :
    p.release a =
      if p.map ⟨k / 32, hword⟩ &&& (1#32 <<< (k % 32)) ≠ 0#32 then .error .doubleFree
      else .ok { p with map := Bitmap.set p.map ⟨k / 32, hword⟩ (k % 32) } := by
  subst hk
  unfold release
  simp only [if_neg hsize, dif_pos hword]

/-- In the pool whose range holds the object, `release` sets the bit of the slot that the object
lies in, or throws when it is set. -/
theorem release_spec {p : MemPool} {a : ℕ} (hsize : p.size ≠ 0) (hle : p.start ≤ a)
    (hlt : a < p.start + p.length) :
    (p.isFree ((a - p.start) / p.size) = true ∧ p.release a = .error .doubleFree) ∨
    (p.isFree ((a - p.start) / p.size) = false ∧ ∃ q, p.release a = .ok q ∧
      q = { p with map := q.map } ∧
      ∀ j, q.isFree j = (p.isFree j || decide (j = (a - p.start) / p.size))) := by
  have hoff : (a - p.start) % 2 ^ 32 = a - p.start := by
    have := p.length_lt
    exact Nat.mod_eq_of_lt (by omega)
  have hk : (a - p.start) / p.size < count := by
    have := p.length_le
    exact (Nat.div_lt_iff_lt_mul (by omega)).mpr (by omega)
  obtain ⟨i, hi⟩ : ∃ i, (a - p.start) / p.size = i := ⟨_, rfl⟩
  rw [hi] at hk ⊢
  have hword : i / 32 < maps := by
    simp only [maps, count] at *
    omega
  have hbit : i % 32 < 32 := Nat.mod_lt _ (by decide)
  have hfree : p.isFree i = (p.map ⟨i / 32, hword⟩).getLsbD (i % 32) := by
    rw [isFree, Bitmap.test, dif_pos hword]
  rw [release_at hsize (by rw [hoff, hi]) hword]
  cases hb : p.isFree i with
  | true =>
    refine .inl ⟨rfl, if_pos ?_⟩
    rw [Ne, Bitmap.and_mask_eq_zero hbit, ← hfree, hb]
    simp
  | false =>
    refine .inr ⟨rfl, _, if_neg ?_, rfl, ?_⟩
    · rw [not_not, Bitmap.and_mask_eq_zero hbit, ← hfree, hb]
    · intro j
      rw [isFree, Bitmap.test_set hbit, Nat.div_add_mod' i 32]
      rfl

end MemPool

end Redx.Allocator
