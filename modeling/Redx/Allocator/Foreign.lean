import Redx.Allocator.Throw

/-!
# Addresses that no pool handed out

`free` throws `invalid_object` at the end of the chain when the range test of every pool has
missed the address. The pool that was never initialised starts at zero and its end wraps, so its
test misses nothing.
-/
namespace Redx.Allocator
open Library

variable {k : Kernel} {w : World} {heap tail a fuel : ℕ} {pools used : List (ℕ × MemPool)}
  {p : MemPool}

/-- The address lies in the mapped zone of no pool. -/
def Foreign (w : World) (pools : List (ℕ × MemPool)) (a : ℕ) : Prop :=
  ∀ x ∈ pools, x.2.zone ∈ w.mapped → ¬ x.2.zone.Contains a

/-- `free` on the head of the chain throws `invalid_object` and changes nothing. -/
def Rejects (w : World) (heap a : ℕ) : Prop :=
  ∃ fuel, free fuel w heap a = some (.error .invalidObject, w)

/-- The 32-bit length is a multiple of 512. -/
theorem MemPool.length_ne_one (p : MemPool) : p.length ≠ 1 := by
  simp only [MemPool.length, count]
  omega

theorem failed_misses (hstart : p.start = mapFailed) (ha : a < 2 ^ 64) : p.Misses a := by
  have hne := p.length_ne_one
  have hlt := p.length_lt
  simp only [MemPool.Misses, MemPool.last, hstart, mapFailed]
  omega

/-- The range test of a settled pool misses every address outside of its zone. -/
theorem Settled.misses (hs : Settled w p) (ha : a < 2 ^ 64)
    (hout : p.zone ∈ w.mapped → ¬ p.zone.Contains a) : p.Misses a := by
  rcases hs with hstart | ⟨hpos, hle, hmem⟩
  · exact failed_misses hstart ha
  · by_contra hm
    obtain ⟨hlo, hhi⟩ := (MemPool.not_misses_iff hpos hle).mp hm
    exact hout hmem ⟨hlo, hhi.trans_le (Nat.add_le_add_left p.length_le_zone _)⟩

/-- An address that every range test misses is rejected at the end of the chain. -/
theorem free_missed {b : ℕ} (hl : Linked w.pools MemPool.next 0 b pools) (hb : b ≠ 0)
    (hall : ∀ x ∈ pools, x.2.Misses a) :
    free pools.length w b a = some (.error .invalidObject, w) := by
  induction hl with
  | done => exact absurd rfl hb
  | @node b v l _ hv hl ih =>
    have hm : v.Misses a := hall _ List.mem_cons_self
    rw [List.length_cons, free, hv]
    dsimp only
    rw [if_pos hm]
    by_cases hnext : v.next = 0
    · rw [if_pos hnext]
    · rw [if_neg hnext]
      exact ih hnext fun x hx => hall x (List.mem_cons_of_mem _ hx)

theorem Thrown.rejects (ht : Thrown w heap pools) (hheap : heap ≠ 0) (ha : a < 2 ^ 64)
    (hf : Foreign w pools a) : Rejects w heap a :=
  ⟨_, free_missed ht.linked hheap fun x hx => (ht.settled x hx).misses ha (hf x hx)⟩

/-- On a chain in order a foreign address comes to the last pool, where the division faults. -/
theorem Chain.free_foreign (hc : Chain w heap used tail) (ha : a < 2 ^ 64)
    (hf : ∀ x ∈ used, x.2.zone ∈ w.mapped → ¬ x.2.zone.Contains a) :
    free (used.length + 1) w heap a = some (.error .divideError, w) := by
  have hmiss : ∀ x ∈ used, x.2.Misses a := fun x hx => (hc.settled hx).misses ha (hf x hx)
  obtain ⟨out, heq, hr⟩ := hc.free_finishes ha (Nat.lt_succ_self used.length)
  rw [heq]
  cases hr with
  | @freed l₁ l₂ b q _ hu hlo hhi =>
    have hq : (b, q) ∈ used := by simp [hu]
    obtain ⟨hpos, -, hle, -⟩ := hc.zoned _ hq
    exact absurd (hmiss _ hq) ((MemPool.not_misses_iff hpos hle).mpr ⟨hlo, hhi⟩)
  | twice hx hlo hhi =>
    obtain ⟨hpos, -, hle, -⟩ := hc.zoned _ hx
    exact absurd (hmiss _ hx) ((MemPool.not_misses_iff hpos hle).mpr ⟨hlo, hhi⟩)
  | foreign => rfl

theorem Chain.not_rejects (hc : Chain w heap used tail) (ha : a < 2 ^ 64)
    (hf : ∀ x ∈ used, x.2.zone ∈ w.mapped → ¬ x.2.zone.Contains a) : ¬ Rejects w heap a := by
  rintro ⟨fuel, h⟩
  have h₁ := free_mono h (Nat.le_max_left fuel (used.length + 1))
  have h₂ := free_mono (hc.free_foreign ha hf) (Nat.le_max_right fuel (used.length + 1))
  rw [h₁] at h₂
  cases h₂

/-- In every reachable state a foreign address is rejected if and only if no pool starts at
zero, that is, only after a request has thrown; otherwise the release divides by zero. -/
theorem rejects_foreign_iff (hheap : heap ≠ 0)
    (hr : Reachable (Calls k heap) (.initial heap) w) :
    ∃ pools, Linked w.pools MemPool.next 0 heap pools ∧
      ∀ a < 2 ^ 64, Foreign w pools a →
        (Rejects w heap a ↔ ∀ x ∈ pools, x.2.start ≠ 0) ∧
        (¬ Rejects w heap a → ∃ fuel, free fuel w heap a = some (.error .divideError, w)) := by
  rcases Calls.inv hheap hr with ⟨-, used, tail, hc⟩ | ⟨pools, ht⟩
  · obtain ⟨p, hp, hsize, hnext, hstart⟩ := hc.last
    refine ⟨_, hc.all_linked hp hnext, fun a ha hf => ?_⟩
    have hused : ∀ x ∈ used, x.2.zone ∈ w.mapped → ¬ x.2.zone.Contains a :=
      fun x hx => hf x (List.mem_append_left _ hx)
    refine ⟨⟨fun h => absurd h (hc.not_rejects ha hused), fun h => ?_⟩,
      fun _ => ⟨_, hc.free_foreign ha hused⟩⟩
    exact absurd hstart (h (tail, p) (by simp))
  · refine ⟨pools, ht.linked, fun a ha hf => ?_⟩
    have hrej := ht.rejects hheap ha hf
    exact ⟨⟨fun _ x hx => ht.start_ne_zero hx, fun _ => hrej⟩, fun h => absurd hrej h⟩

theorem rejects_foreign_iff_bump : ∃ w,
    operatorNew .bump 4096 1 (.initial 4096) 24 = some (.ok 4184, w) ∧
    ∃ pools, Linked w.pools MemPool.next 0 4096 pools ∧
      ∀ a < 2 ^ 64, Foreign w pools a →
        (Rejects w 4096 a ↔ ∀ x ∈ pools, x.2.start ≠ 0) ∧
        (¬ Rejects w 4096 a → ∃ fuel, free fuel w 4096 a = some (.error .divideError, w)) := by
  obtain ⟨w, hcall⟩ : ∃ w, operatorNew .bump 4096 1 (.initial 4096) 24 = some (.ok 4184, w) :=
    ⟨_, rfl⟩
  exact ⟨w, hcall, rejects_foreign_iff (by decide) ⟨_, .next .start (.new hcall)⟩⟩

/-- Before the first request, releasing the null pointer divides by zero. -/
theorem not_rejects_null :
    Reachable (Calls .bump 4096) (.initial 4096) (.initial 4096) ∧
    Linked (World.initial 4096).pools MemPool.next 0 4096 [(4096, .new)] ∧
    Foreign (.initial 4096) [(4096, .new)] 0 ∧
    free 1 (.initial 4096) 4096 0 = some (.error .divideError, .initial 4096) ∧
    ¬ Rejects (.initial 4096) 4096 0 := by
  have hc : Chain (.initial 4096) 4096 [] 4096 := Chain.initial (by decide)
  have hfree := hc.free_foreign (a := 0) (by decide) (by simp)
  refine ⟨⟨[], .start⟩, hc.all_linked (by simp [World.initial]) rfl, ?_, hfree,
    hc.not_rejects (by decide) (by simp)⟩
  simp [Foreign, World.initial, MemPool.zone, MemPool.new, sizeofMemPool]

end Redx.Allocator
