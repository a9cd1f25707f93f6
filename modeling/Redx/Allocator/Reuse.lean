import Redx.Library.Peak
import Redx.Allocator.Failure
import Redx.Allocator.RoundTrip
import Redx.Allocator.Tally
import Mathlib.Algebra.Order.BigOperators.Group.List

/-!
# Reuse of slots

A request takes a new pool only when all pools of its size are full, so that there are as many
pools of a size as the greatest number of live objects of that size has ever filled.
-/
namespace Redx.Allocator
open Library

/-- The sizes of which 512 objects have a length of 32 bits, the one that `free` computes. -/
def Narrow (n : ℕ) : Prop := n * count < 2 ^ 32

/-- The number of live objects of a size. -/
def Heap.liveOf (n : ℕ) (s : Heap) : ℕ := s.live.countP fun o => o.2 = n

/-- The number of pools of a size. -/
def poolsOf (n : ℕ) (used : List (ℕ × MemPool)) : ℕ := used.countP fun x => x.2.size = n

variable {k : Kernel} {admits : ℕ → Prop} {w : World} {heap tail n modulus : ℕ} {s t : Heap}
  {e : Call} {l₁ l₂ used : List (ℕ × MemPool)} {live : List (ℕ × ℕ)}

theorem Layout.narrow : Layout k heap Narrow (2 ^ 64) fun _ => True where
  laid := by
    intro w used tail _ hc hsized x hx
    have hb : Bounded used := fun x hx => (hsized x hx).trans (by decide)
    obtain ⟨-, -, hend, -⟩ := hc.zoned x hx
    refine ⟨hend, fun i hi => ?_⟩
    obtain ⟨hlo, hhi⟩ := hc.zone_covers hb hx hi
    have hpos := Nat.pos_of_ne_zero (hc.sized x hx)
    have hslot : x.2.slot i % 2 ^ 64 = x.2.slot i := Nat.mod_mod ..
    rw [hslot]
    exact ⟨hlo, by dsimp only at hhi; omega⟩
  serves := fun _ _ => trivial

/-- The live objects of a size are those in the pools of that size. -/
theorem Tally.live_eq (ht : Tally admits live used) (hc : Chain w heap used tail)
    (hl : Laid modulus used) : live.countP (fun o => o.2 = n) =
      ((used.filter fun x => x.2.size = n).map fun x => x.2.liveCount live).sum := by
  refine countP_eq_sum fun o ho => ?_
  rw [List.countP_filter]
  obtain ⟨x, hx, hox⟩ := ht.owned o ho
  obtain ⟨l₁, l₂, rfl⟩ := List.append_of_mem hx
  obtain ⟨b, q⟩ := x
  have hrest : ∀ y ∈ l₁ ++ l₂, ¬ y.2.Holds o := fun y hy => hc.not_holds hl hox hy
  have hleft : ∀ l : List (ℕ × MemPool), (∀ y ∈ l, ¬ y.2.Holds o) →
      l.countP (fun y => decide (y.2.Holds o) && decide (y.2.size = n)) = 0 := by
    intro l hnone
    refine List.countP_eq_zero.mpr fun y hy => ?_
    simp [hnone y hy]
  rw [List.countP_append, hleft l₁ fun y hy => hrest y (List.mem_append_left _ hy),
    List.countP_cons, hleft l₂ fun y hy => hrest y (List.mem_append_right _ hy)]
  simp [hox, hox.1]

theorem poolsOf_eq : poolsOf n used = (used.filter fun x => x.2.size = n).length :=
  List.countP_eq_length_filter ..

/-- The live objects of a size fit in the pools of that size. -/
theorem Tally.live_le (ht : Tally admits live used) (hc : Chain w heap used tail)
    (hl : Laid modulus used) : live.countP (fun o => o.2 = n) ≤ count * poolsOf n used := by
  rw [ht.live_eq hc hl, poolsOf_eq, Nat.mul_comm]
  refine (List.sum_le_card_nsmul _ count ?_).trans_eq (by simp)
  intro m hm
  obtain ⟨x, hx, rfl⟩ := List.mem_map.mp hm
  have hcounted := ht.counted x (List.mem_filter.mp hx).1
  omega

/-- When a request passes all pools by, the live objects of its size fill the pools of that
size. -/
theorem Tally.live_full (ht : Tally admits live used) (hc : Chain w heap used tail)
    (hl : Laid modulus used) (hfull : ∀ x ∈ used, x.2.Passes n) :
    live.countP (fun o => o.2 = n) = count * poolsOf n used := by
  rw [ht.live_eq hc hl, poolsOf_eq, Nat.mul_comm]
  refine (List.sum_eq_card_nsmul _ count ?_).trans (by simp)
  intro m hm
  obtain ⟨x, hx, rfl⟩ := List.mem_map.mp hm
  obtain ⟨hx, hsize⟩ := List.mem_filter.mp hx
  have hcounted := ht.counted x hx
  have hnone : x.2.setBits = 0 := by
    refine List.countP_eq_zero.mpr fun i _ => ?_
    rw [hfull x hx (of_decide_eq_true hsize) i]
    exact Bool.false_ne_true
  omega

/-- A call leaves the pools of every size as many as they are, or it is a request that all pools
pass by, which adds a pool of its size. -/
theorem Uses.pools (h : Uses k heap admits s e t) (hc : Chain s.world heap used tail)
    (ht : Tally admits s.live used) : ∃ used' tail', Chain t.world heap used' tail' ∧
      ((∀ m, poolsOf m used' = poolsOf m used) ∨
        ∃ n a, t.live = (a, n) :: s.live ∧ (∀ x ∈ used, x.2.Passes n) ∧
          ∀ m, poolsOf m used' = poolsOf m used + if n = m then 1 else 0) := by
  have hlock : Chain { s.world with locked := true } heap used tail := hc.of_eq rfl rfl
  have hsame : ∀ {l₁ l₂ : List (ℕ × MemPool)} {b : ℕ} {q q' : MemPool},
      q' = { q with map := q'.map } → ∀ m,
      poolsOf m (l₁ ++ (b, q') :: l₂) = poolsOf m (l₁ ++ (b, q) :: l₂) := by
    intro l₁ l₂ b q q' hq m
    have hsize : q'.size = q.size := by rw [hq]
    simp only [poolsOf, List.countP_append, List.countP_cons, hsize]
  cases h with
  | @new _ fuel n a hn hcall =>
    obtain ⟨-, v, hv, rfl⟩ := locked_ok hcall
    have hserves := hlock.allocate_ok hv
    have hpos := hserves.pos hlock
    cases hserves with
    | @hit l₁ l₂ b i q q' hu _ _ hi ht =>
      obtain ⟨q'', ht', hq, -⟩ := hi.take
      obtain rfl : q'' = q' := by simpa [ht'] using ht
      subst hu
      exact ⟨_, _, (hlock.setMap hq).of_eq rfl rfl, .inl (hsame hq)⟩
    | @grown start next q hall hz ho ht =>
      obtain ⟨q', ht', hq, -⟩ := (MemPool.opened_firstFree n next a).take
      rw [ht'] at ht
      obtain ⟨-, rfl⟩ := Prod.mk.inj (Option.some.inj ht)
      refine ⟨_, _, (hlock.grow hpos.ne' hz ho hq).of_eq rfl rfl, .inr ⟨n, a, rfl, hall, ?_⟩⟩
      intro m
      have hsize : q'.size = n := by
        rw [hq]
        rfl
      simp [poolsOf, List.countP_append, List.countP_singleton, hsize]
  | @delete _ fuel n a hlive hcall =>
    obtain ⟨-, v, hv, rfl⟩ := locked_ok hcall
    cases hlock.free_releases (ht.address_lt hlive) hv with
    | freed hu _ _ _ hq _ =>
      subst hu
      exact ⟨_, _, (hlock.setMap hq).of_eq rfl rfl, .inl (hsame hq)⟩

/-- A call of a run of these sizes is one of those that keep the live objects apart. -/
theorem Uses.step (h : Uses k heap Narrow s e t) (hs : s.Inv heap) : Step k heap s e t := by
  cases h with
  | @new _ fuel n a hn hcall =>
    obtain ⟨used, tail, hc, -⟩ := hs
    obtain ⟨-, v, hv, rfl⟩ := locked_ok hcall
    have hlock : Chain { s.world with locked := true } heap used tail := hc.of_eq rfl rfl
    have hbound : n * count < 2 ^ 32 := hn
    exact .new ((hlock.allocate_ok hv).pos hlock) (by omega) hcall
  | delete hlive hcall => exact .delete hlive hcall

theorem Uses.unlocked (h : Uses k heap admits s e t) : t.world.locked = false := by
  cases h with
  | new _ hcall =>
    obtain ⟨-, v, -, rfl⟩ := locked_ok hcall
    rfl
  | delete _ hcall =>
    obtain ⟨-, v, -, rfl⟩ := locked_ok hcall
    rfl

/-- The release of a live object returns. -/
theorem Heap.Inv.delete_returns {o : ℕ × ℕ} (hs : s.Inv heap) (hl : s.world.locked = false)
    (hnarrow : ∀ o ∈ s.live, Narrow o.2) (ho : o ∈ s.live) :
    ∃ fuel w, operatorDelete heap fuel s.world o.1 = some (.ok (), w) := by
  obtain ⟨used, tail, hc, hs⟩ := hs
  have hlock : Chain { s.world with locked := true } heap used tail := hc.of_eq rfl rfl
  obtain ⟨⟨b, q⟩, hx, i, hi, hfree, rfl⟩ := (hs.handed o).mp ho
  obtain ⟨l₁, l₂, rfl⟩ := List.append_of_mem hx
  have hlength : q.length = q.size * count := by
    have hbound := hnarrow (q.slot i, q.size) ho
    rw [MemPool.length, Nat.mul_comm count]
    exact Nat.mod_eq_of_lt hbound
  have hin : i * q.size < q.length := by
    rw [hlength, Nat.mul_comm]
    exact Nat.mul_lt_mul_of_pos_left hi (Nat.pos_of_ne_zero (hc.sized _ hx))
  obtain ⟨q', -, -, hcall⟩ := hlock.free_slot hin hfree (Nat.lt_succ_self _)
  exact ⟨_, _, by rw [operatorDelete, locked, if_neg (by simp [hl]), hcall]⟩

/-- A request whose `mmap` calls do not fail returns. -/
theorem Chain.new_returns (hc : Chain s.world heap used tail) (hl : s.world.locked = false)
    (hf : Fulfilled k s.world used n) :
    ∃ fuel a w, operatorNew k heap fuel s.world n = some (.ok a, w) := by
  have hlock : Chain { s.world with locked := true } heap used tail := hc.of_eq rfl rfl
  rcases hlock.allocate_finishes (k := k) (n := n) (Nat.lt_succ_self _) with
    ⟨a, w, hcall, -⟩ | ⟨w, hcall⟩
  · exact ⟨_, a, _, by rw [operatorNew, locked, if_neg (by simp [hl]), hcall]⟩
  · exact absurd hcall (hlock.fulfilled_ok hf)

/-- The tally of a chain with so many pools of a size. -/
def Heap.Pooled (heap n : ℕ) (s : Heap) (pools : ℕ) : Prop :=
  ∃ used tail, Chain s.world heap used tail ∧ Tally Narrow s.live used ∧ poolsOf n used = pools

theorem Heap.Pooled.initial (hheap : heap ≠ 0) : (Heap.initial heap).Pooled heap n 0 :=
  ⟨[], heap, Chain.initial hheap, .initial, rfl⟩

theorem Heap.Pooled.live_le {pools : ℕ} (hs : s.Pooled heap n pools) :
    s.liveOf n ≤ count * pools := by
  obtain ⟨used, tail, hc, ht, rfl⟩ := hs
  exact ht.live_le hc (Layout.narrow (k := .bump) |>.laid trivial hc ht.sized)

theorem Heap.Pooled.step {pools : ℕ} (hs : s.Pooled heap n pools)
    (h : Uses k heap Narrow s e t) : t.Pooled heap n pools ∨
      t.Pooled heap n (pools + 1) ∧ t.liveOf n = count * pools + 1 := by
  obtain ⟨used, tail, hc, ht, rfl⟩ := hs
  have hl := Layout.narrow (k := k) |>.laid trivial hc ht.sized
  have hs : s.Tallied (fun _ => True) Narrow heap := ⟨trivial, used, tail, hc, ht⟩
  obtain ⟨-, used', tail', hc', ht'⟩ := hs.step Layout.narrow h
  obtain ⟨used'', tail'', hc'', hpools⟩ := h.pools hc ht
  obtain ⟨rfl, rfl⟩ := hc'.unique hc''
  rcases hpools with hsame | ⟨m, a, hlive, hfull, hmore⟩
  · exact .inl ⟨used', tail', hc', ht', hsame n⟩
  · by_cases hm : m = n
    · subst hm
      refine .inr ⟨⟨used', tail', hc', ht', by rw [hmore, if_pos rfl]⟩, ?_⟩
      rw [Heap.liveOf, hlive, List.countP_cons_of_pos (by simp), ht.live_full hc hl hfull]
    · exact .inl ⟨used', tail', hc', ht', by rw [hmore, if_neg hm, Nat.add_zero]⟩

/-- After any calls there are as many pools of each size as the greatest number of live objects
of that size needs, and a call adds none of a size that has a free slot. Releases of live objects
return, and so do requests that `mmap` does not fail. -/
theorem pools_eq_peak {h : List (Heap × Call)} (hheap : heap ≠ 0)
    (hr : Run (Uses k heap Narrow) (.initial heap) h s) :
    ∃ used tail, Chain s.world heap used tail ∧
      (∀ n, poolsOf n used = (peak (Heap.liveOf n) h s + count - 1) / count) ∧
      (∀ e t, Uses k heap Narrow s e t → ∃ used' tail', Chain t.world heap used' tail' ∧
        ∀ n, (∃ x ∈ used, x.2.size = n ∧ ∃ i < count, x.2.isFree i = true) →
          poolsOf n used' = poolsOf n used) ∧
      (∀ o ∈ s.live, ∃ fuel w, operatorDelete heap fuel s.world o.1 = some (.ok (), w)) ∧
      ∀ n, Fulfilled k s.world used n →
        ∃ fuel a w, operatorNew k heap fuel s.world n = some (.ok a, w) := by
  have hinv : s.Inv heap := hr.invariant (P := Heap.Inv heap)
    ⟨[], heap, Chain.initial hheap, Sound.initial⟩ fun _ _ _ hs hstep => hs.step (hstep.step hs)
  have hunlocked : s.world.locked = false := hr.invariant (P := fun s => s.world.locked = false)
    rfl fun _ _ _ _ hstep => hstep.unlocked
  obtain ⟨-, used, tail, hc, ht⟩ := hr.invariant (P := Heap.Tallied (fun _ => True) Narrow heap)
    (Heap.Tallied.initial hheap trivial) fun _ _ _ hs hstep => hs.step Layout.narrow hstep
  refine ⟨used, tail, hc, fun n => ?_, fun e t hstep => ?_, fun o ho => ?_, fun n hf => ?_⟩
  · have hpooled := hr.blocks_eq (I := Heap.Pooled heap n) (by decide) (.initial hheap)
      (fun _ _ hs => hs.live_le) fun _ _ _ _ hs hstep => hs.step hstep
    obtain ⟨used', tail', hc', -, hpools⟩ := hpooled
    obtain ⟨rfl, rfl⟩ := hc.unique hc'
    exact hpools
  · obtain ⟨used', tail', hc', hpools⟩ := hstep.pools hc ht
    refine ⟨used', tail', hc', ?_⟩
    rintro n ⟨x, hx, hsize, i, -, hfree⟩
    rcases hpools with hsame | ⟨m, a, -, hfull, hmore⟩
    · exact hsame n
    · have hne : m ≠ n := by
        rintro rfl
        rw [hfull x hx hsize i] at hfree
        cases hfree
      rw [hmore, if_neg hne, Nat.add_zero]
  · refine hinv.delete_returns hunlocked (fun o ho => ?_) ho
    obtain ⟨x, hx, hsize, -⟩ := ht.owned o ho
    exact hsize ▸ ht.sized x hx
  · exact hc.new_returns hunlocked hf

/-- Two sizes, and a slot that is released and taken again. -/
theorem pools_eq_peak_bump : ∃ (h : List (Heap × Call)) (s : Heap),
    s.live = [(4184, 24), (16560, 100)] ∧ Run (Uses .bump 4096 Narrow) (.initial 4096) h s ∧
    ∃ used tail, Chain s.world 4096 used tail ∧
      (∀ n, poolsOf n used = (peak (Heap.liveOf n) h s + count - 1) / count) ∧
      (∀ e t, Uses .bump 4096 Narrow s e t → ∃ used' tail', Chain t.world 4096 used' tail' ∧
        ∀ n, (∃ x ∈ used, x.2.size = n ∧ ∃ i < count, x.2.isFree i = true) →
          poolsOf n used' = poolsOf n used) ∧
      (∀ o ∈ s.live, ∃ fuel w, operatorDelete 4096 fuel s.world o.1 = some (.ok (), w)) ∧
      ∀ n, Fulfilled .bump s.world used n →
        ∃ fuel a w, operatorNew .bump 4096 fuel s.world n = some (.ok a, w) := by
  obtain ⟨w₁, w₂, w₃, w₄, h₁, h₂, h₃, h₄⟩ : ∃ w₁ w₂ w₃ w₄,
      operatorNew .bump 4096 1 (.initial 4096) 24 = some (.ok 4184, w₁) ∧
      operatorNew .bump 4096 2 w₁ 100 = some (.ok 16560, w₂) ∧
      operatorDelete 4096 1 w₂ 4184 = some (.ok (), w₃) ∧
      operatorNew .bump 4096 1 w₃ 24 = some (.ok 4184, w₄) := ⟨_, _, _, _, rfl, rfl, rfl, rfl⟩
  have hnarrow : Narrow 24 ∧ Narrow 100 := by
    unfold Narrow
    decide
  have hr : Run (Uses .bump 4096 Narrow) (.initial 4096) _ _ :=
    .next .start (.new hnarrow.1 h₁)
  have hr := hr.next (.new hnarrow.2 h₂)
  have hr := hr.next (.delete (List.mem_cons_of_mem _ List.mem_cons_self) h₃)
  have hr := hr.next (.new hnarrow.1 h₄)
  exact ⟨_, _, rfl, hr, pools_eq_peak (by decide) hr⟩

end Redx.Allocator
