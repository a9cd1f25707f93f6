import Redx.Allocator.Throw

/-!
# What a failed request leaves behind

A request whose `mmap` calls all succeed does not throw. Any other throws with the last pool half
initialised and the mutex held, so that every later call waits for ever.
-/
namespace Redx.Allocator
open Library

/-- No `mmap` that the request makes fails: a pool of its size has a free slot, so that it makes
none, or both calls for a new pool succeed. -/
def Fulfilled (k : Kernel) (w : World) (used : List (ℕ × MemPool)) (n : ℕ) : Prop :=
  (∃ x ∈ used, x.2.size = n ∧ ∃ i, x.2.isFree i = true) ∨
  ∃ start next, k.mmap w.mapped (n * count % 2 ^ 64) = some start ∧
    k.mmap (⟨start, n * count % 2 ^ 64⟩ :: w.mapped) sizeofMemPool = some next

/-- A failed request that left `w'` has undone itself: the chain is the one before, the mutex is
free, and from there on no call blocks and every request that can be fulfilled is served. -/
structure Intact (k : Kernel) (heap : ℕ) (w w' : World) : Prop where
  same : ∃ used tail, Chain w heap used tail ∧ Chain w' heap used tail
  unlocked : w'.locked = false
  newReturns : ∀ {v v' : World} {fuel n : ℕ}, Reachable (Calls k heap) w' v →
    operatorNew k heap fuel v n ≠ some (.error .deadlock, v')
  deleteReturns : ∀ {v v' : World} {fuel a : ℕ}, Reachable (Calls k heap) w' v →
    operatorDelete heap fuel v a ≠ some (.error .deadlock, v')
  served : ∀ {v : World} {used : List (ℕ × MemPool)} {tail n : ℕ},
    Reachable (Calls k heap) w' v → Chain v heap used tail → Fulfilled k v used n →
      ∃ fuel a v', operatorNew k heap fuel v n = some (.ok a, v')

/-- When the request throws `bad_alloc`, it has undone itself. -/
def FailsAtomically (k : Kernel) (heap : ℕ) (w : World) (n : ℕ) : Prop :=
  ∀ fuel w', operatorNew k heap fuel w n = some (.error .badAlloc, w') → Intact k heap w w'

variable {k : Kernel} {w w' : World} {heap tail n fuel : ℕ} {pools used : List (ℕ × MemPool)}

/-- A request that can be fulfilled does not throw. -/
theorem Chain.fulfilled_ok (hc : Chain w heap used tail) (hf : Fulfilled k w used n) {e : Exit} :
    allocate k fuel w heap n ≠ some (.error e, w') := by
  intro h
  obtain ⟨hall, p, -, -, hgrows⟩ := hc.allocate_throws h
  rcases hf with ⟨x, hx, hsize, i, hi⟩ | ⟨start, next, hz, ho⟩
  · rw [hall x hx hsize i] at hi
    cases hi
  · cases hgrows with
    | noZone hz' =>
      rw [hz] at hz'
      cases hz'
    | noPool hz' ho' =>
      obtain rfl := Option.some.inj (hz.symm.trans hz')
      rw [ho] at ho'
      cases ho'

/-- A request that cannot be fulfilled throws `bad_alloc`. -/
theorem Chain.unfulfilled_throws (hc : Chain w heap used tail) (hf : ¬ Fulfilled k w used n) :
    ∃ w', allocate k (used.length + 1) w heap n = some (.error .badAlloc, w') := by
  obtain ⟨p, hp, hsize, -, -⟩ := hc.last
  rcases allocate_linked (k := k) (n := n) hc.linked hp hsize hc.sized
      (Nat.lt_succ_self used.length) with
    ⟨l₁, b, q, l₂, q', i, hu, -, hsz, hi, -, -⟩ | ⟨-, out, hout, heq⟩
  · exact absurd (.inl ⟨(b, q), by simp [hu], hsz, i, hi.1⟩) hf
  · cases hout with
    | noZone => exact ⟨_, heq⟩
    | noPool => exact ⟨_, heq⟩
    | served hz ho => exact absurd (.inr ⟨_, _, hz, ho⟩) hf

theorem operatorNew_unfulfilled (hc : Chain w heap used tail) (hl : w.locked = false)
    (hf : ¬ Fulfilled k w used n) :
    ∃ w', operatorNew k heap (used.length + 1) w n = some (.error .badAlloc, w') := by
  have hlock : Chain { w with locked := true } heap used tail := hc.of_eq rfl rfl
  obtain ⟨w', h⟩ := hlock.unfulfilled_throws (k := k) (n := n) hf
  exact ⟨w', by rw [operatorNew, locked, if_neg (by simp [hl]), h]⟩

/-- The pools that a thrown request leaves are no chain in order: none of them is waiting to be
initialised. -/
theorem Thrown.not_chain (ht : Thrown w heap pools) : ¬ Chain w heap used tail := by
  intro hc
  obtain ⟨p, hp, -, hnext, hstart⟩ := hc.last
  obtain rfl := ht.linked.unique (hc.all_linked hp hnext)
  exact ht.start_ne_zero (x := (tail, p)) (by simp) hstart

/-- After a throw the chain is out of order and every later call blocks. -/
theorem operatorNew_throws_blocks (hheap : heap ≠ 0)
    (hr : Reachable (Calls k heap) (.initial heap) w)
    (h : operatorNew k heap fuel w n = some (.error .badAlloc, w')) :
    (¬ ∃ used tail, Chain w' heap used tail) ∧
      (∀ fuel m, operatorNew k heap fuel w' m = some (.error .deadlock, w')) ∧
      ∀ fuel a, operatorDelete heap fuel w' a = some (.error .deadlock, w') := by
  obtain ⟨pools, ht⟩ : ∃ pools, Thrown w' heap pools := by
    rcases Calls.inv hheap hr with ⟨hl, used, tail, hc⟩ | ⟨pools, ht⟩
    · exact (hc.operatorNew_throws hl h).2
    · simp [operatorNew, locked_deadlock ht.locked] at h
  refine ⟨?_, fun fuel m => locked_deadlock ht.locked _, fun fuel a => locked_deadlock ht.locked _⟩
  rintro ⟨used, tail, hc⟩
  exact ht.not_chain hc

/-- In every reachable state a request fails atomically if and only if it does not fail: it
blocks, because an earlier request has thrown, or none of its `mmap` calls fails. -/
theorem failsAtomically_iff (hheap : heap ≠ 0)
    (hr : Reachable (Calls k heap) (.initial heap) w) :
    FailsAtomically k heap w n ↔
      w.locked = true ∨ ∃ used tail, Chain w heap used tail ∧ Fulfilled k w used n := by
  constructor
  · intro hatomic
    rcases Calls.inv hheap hr with ⟨hl, used, tail, hc⟩ | ⟨pools, ht⟩
    · refine .inr ⟨used, tail, hc, ?_⟩
      by_contra hf
      obtain ⟨w', h⟩ := operatorNew_unfulfilled hc hl hf
      obtain ⟨-, pools, ht⟩ := hc.operatorNew_throws hl h
      have := (hatomic _ _ h).unlocked
      rw [ht.locked] at this
      cases this
    · exact .inl ht.locked
  · rintro (hl | ⟨used, tail, hc, hf⟩) fuel w' h
    · simp [operatorNew, locked_deadlock hl] at h
    · have hlock : Chain { w with locked := true } heap used tail := hc.of_eq rfl rfl
      rcases locked_error h with ⟨-, he⟩ | ⟨-, hcall⟩
      · cases he
      · exact absurd hcall (hlock.fulfilled_ok hf)

/-- After a request that is served, one whose zone does not fit the address space. -/
theorem failsAtomically_iff_bump : ∃ w w',
    operatorNew .bump 4096 1 (.initial 4096) 24 = some (.ok 4184, w) ∧
    operatorNew .bump 4096 2 w (2 ^ 55 - 1) = some (.error .badAlloc, w') ∧
    (FailsAtomically .bump 4096 w (2 ^ 55 - 1) ↔
      w.locked = true ∨
        ∃ used tail, Chain w 4096 used tail ∧ Fulfilled .bump w used (2 ^ 55 - 1)) := by
  obtain ⟨w, w', h, h'⟩ : ∃ w w',
      operatorNew .bump 4096 1 (.initial 4096) 24 = some (.ok 4184, w) ∧
      operatorNew .bump 4096 2 w (2 ^ 55 - 1) = some (.error .badAlloc, w') := ⟨_, _, rfl, rfl⟩
  have hr : Reachable (Calls .bump 4096) (.initial 4096) w :=
    Reachable.next ⟨[], .start⟩ (.new h)
  exact ⟨w, w', h, h', failsAtomically_iff (by decide) hr⟩

/-- The first request asks for objects so large that no zone for 512 of them fits the address
space. It throws, and the next request, for 24 bytes, blocks. -/
theorem not_failsAtomically :
    Reachable (Calls .bump 4096) (.initial 4096) (.initial 4096) ∧
    (∃ w', operatorNew .bump 4096 1 (.initial 4096) (2 ^ 55 - 1) = some (.error .badAlloc, w') ∧
      operatorNew .bump 4096 1 w' 24 = some (.error .deadlock, w')) ∧
    ¬ FailsAtomically .bump 4096 (.initial 4096) (2 ^ 55 - 1) := by
  obtain ⟨w', hcall⟩ : ∃ w', operatorNew .bump 4096 1 (.initial 4096) (2 ^ 55 - 1) =
      some (.error .badAlloc, w') := ⟨_, rfl⟩
  obtain ⟨-, hnew, -⟩ := operatorNew_throws_blocks (by decide) ⟨[], .start⟩ hcall
  refine ⟨⟨[], .start⟩, ⟨w', hcall, hnew 1 24⟩, ?_⟩
  intro h
  exact (h _ _ hcall).newReturns ⟨[], .start⟩ (hnew 1 24)

end Redx.Allocator
