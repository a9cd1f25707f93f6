import Redx.Library.Run
import Redx.Allocator.Allocate
import Redx.Allocator.Free

/-!
# Freeing what was allocated

`initialize` and `allocate` compute the zone and the slot address in `size_t`; the range test of
`free` uses the 32-bit product of count and size. The two agree on a slot exactly when its offset
in the zone is below that product.
-/
namespace Redx.Allocator
open Library

/-- Calls on any size above zero and any address that return normally. -/
inductive Returns (k : Kernel) (heap : ℕ) : World → Call → World → Prop
  | new {w w' : World} {fuel n a : ℕ} : 0 < n →
      operatorNew k heap fuel w n = some (.ok a, w') → Returns k heap w (.new n) w'
  | delete {w w' : World} {fuel a : ℕ} : a < 2 ^ 64 →
      operatorDelete heap fuel w a = some (.ok (), w') → Returns k heap w (.delete a) w'

variable {k : Kernel} {w w' : World} {heap tail a b i n fuel : ℕ}
  {l₁ l₂ used : List (ℕ × MemPool)} {q q' : MemPool}

theorem Returns.chain {e : Call} (h : Returns k heap w e w')
    (hc : ∃ used tail, Chain w heap used tail) : ∃ used tail, Chain w' heap used tail := by
  obtain ⟨used, tail, hc⟩ := hc
  have hlock : Chain { w with locked := true } heap used tail := hc.of_eq rfl rfl
  cases h with
  | new hn hcall =>
    obtain ⟨-, v, hv, rfl⟩ := locked_ok hcall
    obtain ⟨l₁, b, -, q, l₂, tail', hc', -⟩ := (hlock.allocate_ok hv).takes hlock hn
    exact ⟨_, _, hc'.of_eq rfl rfl⟩
  | delete ha hcall =>
    obtain ⟨-, v, hv, rfl⟩ := locked_ok hcall
    cases hlock.free_releases ha hv with
    | freed hu _ _ _ hq _ =>
      subst hu
      exact ⟨_, _, (hlock.setMap hq).of_eq rfl rfl⟩

/-- An address in the 32-bit range of a pool is released there. -/
theorem Chain.free_inside (hc : Chain w heap (l₁ ++ (b, q) :: l₂) tail) (hlo : q.start ≤ a)
    (hhi : a < q.start + q.length) (hf : (l₁ ++ (b, q) :: l₂).length < fuel) :
    (q.isFree ((a - q.start) / q.size) = true ∧
      free fuel w heap a = some (.error .doubleFree, w)) ∨
    (q.isFree ((a - q.start) / q.size) = false ∧ ∃ q', q' = { q with map := q'.map } ∧
      (∀ j, q'.isFree j = (q.isFree j || decide (j = (a - q.start) / q.size))) ∧
      free fuel w heap a = some (.ok (), w.setPool b q')) := by
  have hmem : (b, q) ∈ l₁ ++ (b, q) :: l₂ := by simp
  obtain ⟨hstart, -, hend, -⟩ := hc.zoned _ hmem
  have hlen := q.length_le_zone
  have ha : a < 2 ^ 64 := by
    dsimp only at hend
    omega
  have hsame : ∀ x ∈ l₁ ++ (b, q) :: l₂, x.2.start ≤ a → a < x.2.start + x.2.length →
      x = (b, q) := by
    intro x hx hxlo hxhi
    refine hc.zone_unique hx hmem (a := a) ⟨hxlo, ?_⟩ ⟨hlo, ?_⟩
    · exact hxhi.trans_le (Nat.add_le_add_left x.2.length_le_zone _)
    · exact hhi.trans_le (Nat.add_le_add_left q.length_le_zone _)
  obtain ⟨out, heq, hr⟩ := hc.free_finishes ha hf
  cases hr with
  | @freed m₁ m₂ c r r' hu hlo' hhi' hfree hr hbits =>
    have hr_mem : (c, r) ∈ l₁ ++ (b, q) :: l₂ := by simp [hu]
    obtain ⟨rfl, rfl⟩ := Prod.mk.inj (hsame _ hr_mem hlo' hhi')
    exact .inr ⟨hfree, r', hr, hbits, heq⟩
  | twice hx hlo' hhi' hfree =>
    obtain rfl := hsame _ hx hlo' hhi'
    exact .inl ⟨hfree, heq⟩
  | foreign hall =>
    exact absurd (hall _ hmem) ((MemPool.not_misses_iff hstart hend).mpr ⟨hlo, hhi⟩)

/-- A slot whose offset is below the 32-bit length has the address that `free` maps back to it. -/
theorem Chain.slot_in_range (hc : Chain w heap used tail) {x : ℕ × MemPool} (hx : x ∈ used)
    (hi : i * x.2.size < x.2.length) :
    x.2.start ≤ x.2.slot i ∧ x.2.slot i < x.2.start + x.2.length ∧
      (x.2.slot i - x.2.start) / x.2.size = i := by
  obtain ⟨-, -, hend, -⟩ := hc.zoned x hx
  have hlen := x.2.length_le_zone
  have hslot : x.2.slot i = x.2.start + i * x.2.size := Nat.mod_eq_of_lt (by omega)
  rw [hslot, Nat.add_sub_cancel_left, Nat.mul_div_cancel _ (Nat.pos_of_ne_zero (hc.sized x hx))]
  exact ⟨by omega, by omega, rfl⟩

/-- Releasing slot `i`, whose bit is clear, sets that bit. -/
theorem Chain.free_slot (hc : Chain w heap (l₁ ++ (b, q) :: l₂) tail)
    (hi : i * q.size < q.length) (hfree : q.isFree i = false)
    (hf : (l₁ ++ (b, q) :: l₂).length < fuel) :
    ∃ q', q' = { q with map := q'.map } ∧ (∀ j, q'.isFree j = (q.isFree j || decide (j = i))) ∧
      free fuel w heap (q.slot i) = some (.ok (), w.setPool b q') := by
  obtain ⟨hlo, hhi, hindex⟩ := hc.slot_in_range (x := (b, q)) (by simp) hi
  dsimp only at hlo hhi hindex
  rcases hc.free_inside hlo hhi hf with ⟨h, -⟩ | ⟨-, h⟩
  · rw [hindex, hfree] at h
    cases h
  · rwa [hindex] at h

end Redx.Allocator
