import Redx.Library.Chain
import Redx.Allocator.Slots
import Mathlib.Data.List.Pairwise

/-!
# The chain of pools

From `heap` the links lead through initialised pools, whose zones are apart from each other, to
one last pool that is not initialised. Clearing or setting bits keeps the chain, and so does
initialising the last pool when both of its `mmap` calls succeed.
-/
namespace Redx.Allocator
open Library

/-- The pools reached from `heap`: the initialised ones in `used`, then the one at `tail`. -/
structure Chain (w : World) (heap : ℕ) (used : List (ℕ × MemPool))
    (tail : ℕ) : Prop where
  linked : Linked w.pools MemPool.next tail heap used
  last : ∃ p, w.pools tail = some p ∧ p.size = 0 ∧ p.next = 0 ∧ p.start = 0
  sized : ∀ x ∈ used, x.2.size ≠ 0
  placed : ∀ a ∈ tail :: used.map Prod.fst, a ≠ 0 ∧ ⟨a, sizeofMemPool⟩ ∈ w.mapped
  zoned : ∀ x ∈ used, 0 < x.2.start ∧ 0 < x.2.zone.length ∧
    x.2.start + x.2.zone.length ≤ 2 ^ 64 ∧ x.2.zone ∈ w.mapped
  apart : used.Pairwise fun x y => x.2.zone.Apart y.2.zone

theorem Chain.initial {heap : ℕ} (h : heap ≠ 0) : Chain (.initial heap) heap [] heap where
  linked := .done
  last := ⟨.new, by simp [World.initial], rfl, rfl, rfl⟩
  sized := by simp
  placed := by simpa [World.initial] using h
  zoned := by simp
  apart := .nil

variable {k : Kernel} {w w' : World} {heap tail a b n : ℕ} {l₁ l₂ used : List (ℕ × MemPool)}
  {q q' : MemPool}

theorem Chain.of_eq (hc : Chain w heap used tail) (hp : w'.pools = w.pools)
    (hm : w'.mapped = w.mapped) : Chain w' heap used tail where
  linked := hp ▸ hc.linked
  last := hp ▸ hc.last
  sized := hc.sized
  placed := hm ▸ hc.placed
  zoned := hm ▸ hc.zoned
  apart := hc.apart

theorem Chain.tail_ne (hc : Chain w heap used tail) {x : ℕ × MemPool} (hx : x ∈ used) :
    x.1 ≠ tail := hc.linked.ne_end hx

/-- The memory determines the chain. -/
theorem Chain.unique {used' : List (ℕ × MemPool)} {tail' : ℕ} (hc : Chain w heap used tail)
    (hc' : Chain w heap used' tail') : used = used' ∧ tail = tail' := by
  have hne : ∀ {used used' : List (ℕ × MemPool)} {tail tail' : ℕ}, Chain w heap used tail →
      Chain w heap used' tail' → ∀ x ∈ used', x.1 ≠ tail := by
    intro used used' tail tail' hc hc' x hx heq
    obtain ⟨p, hp, hsize, -⟩ := hc.last
    have := hc'.linked.mem_eq hx
    rw [heq, hp] at this
    exact hc'.sized x hx (Option.some.inj this ▸ hsize)
  exact hc.linked.end_unique hc'.linked (hne hc hc') (hne hc' hc)

/-- An address lies in the zone of one pool at most. -/
theorem Chain.zone_unique (hc : Chain w heap used tail) {x y : ℕ × MemPool} (hx : x ∈ used)
    (hy : y ∈ used) (hax : x.2.zone.Contains a) (hay : y.2.zone.Contains a) : x = y := by
  by_contra hne
  have : Std.Symm fun x y : ℕ × MemPool => x.2.zone.Apart y.2.zone := ⟨fun _ _ h => h.symm⟩
  exact (hc.apart.forall hx hy hne).not_contains hax hay

/-- A pool does not occur twice in the chain. -/
theorem Chain.ne_middle (hc : Chain w heap (l₁ ++ (b, q) :: l₂) tail) {x : ℕ × MemPool}
    (hx : x ∈ l₁ ++ l₂) : x ≠ (b, q) := by
  rintro rfl
  have hnodup := hc.linked.nodup
  simp only [List.map_append, List.map_cons, List.nodup_middle, List.nodup_cons] at hnodup
  exact hnodup.1 (by simpa using List.mem_map_of_mem (f := Prod.fst) hx)

/-- A store that changes nothing but the map of a pool keeps the chain. -/
theorem Chain.setMap (hc : Chain w heap (l₁ ++ (b, q) :: l₂) tail)
    (hq : q' = { q with map := q'.map }) :
    Chain (w.setPool b q') heap (l₁ ++ (b, q') :: l₂) tail where
  linked := hc.linked.replace (by rw [hq])
  last := by
    obtain ⟨p, hp, hrest⟩ := hc.last
    have hb : b ≠ tail := hc.tail_ne (x := (b, q)) (by simp)
    exact ⟨p, (World.setPool_pools_of_ne hb.symm).trans hp, hrest⟩
  sized := by
    intro x hx
    rcases List.mem_append.mp hx with h | h
    · exact hc.sized x (by simp [h])
    · rcases List.mem_cons.mp h with rfl | h
      · rw [hq]
        exact hc.sized (b, q) (by simp)
      · exact hc.sized x (by simp [h])
  placed := by simpa using hc.placed
  zoned := by
    intro x hx
    rcases List.mem_append.mp hx with h | h
    · exact hc.zoned x (by simp [h])
    · rcases List.mem_cons.mp h with rfl | h
      · rw [hq]
        exact hc.zoned (b, q) (by simp)
      · exact hc.zoned x (by simp [h])
  apart := by
    have h := hc.apart
    rw [List.pairwise_append, List.pairwise_cons] at h ⊢
    have hz : q'.zone = q.zone := by rw [hq]; rfl
    simp only [List.forall_mem_cons, hz] at h ⊢
    exact h

/-- Serving a request from a new zone appends the last pool to the initialised ones. -/
theorem Chain.grow (hc : Chain w heap used tail) {start next : ℕ} (hn : n ≠ 0)
    (hz : k.mmap w.mapped (n * count % 2 ^ 64) = some start)
    (ho : k.mmap (⟨start, n * count % 2 ^ 64⟩ :: w.mapped) sizeofMemPool = some next)
    (hq : q = { MemPool.opened n next start with map := q.map }) :
    Chain ((((w.map ⟨start, n * count % 2 ^ 64⟩).map ⟨next, sizeofMemPool⟩).setPool next
      .new).setPool tail q) heap (used ++ [(tail, q)]) next := by
  obtain ⟨hzlen, hzpos, hzle, hzapart⟩ := k.fresh hz
  obtain ⟨holen, hopos, -, hoapart⟩ := k.fresh ho
  have hqzone : q.zone = ⟨start, n * count % 2 ^ 64⟩ := by rw [hq]; rfl
  have hfresh : ∀ b ∈ tail :: used.map Prod.fst, b ≠ next := by
    intro b hb
    have := hoapart _ (List.mem_cons_of_mem _ (hc.placed b hb).2)
    exact this.base_ne holen holen
  have htail : tail ≠ next := hfresh tail List.mem_cons_self
  have hused : ∀ x ∈ used, x.1 ≠ next := fun x hx =>
    hfresh x.1 (List.mem_cons_of_mem _ (List.mem_map_of_mem hx))
  refine ⟨?_, ?_, ?_, ?_, ?_, ?_⟩
  · refine (hc.linked.congr ?_).append hused (.node htail ?_ ?_)
    · intro x hx
      rw [World.setPool_pools_of_ne (hc.tail_ne hx), World.setPool_pools_of_ne (hused x hx)]
      rfl
    · exact World.setPool_pools_self ..
    · rw [hq]
      exact .done
  · refine ⟨.new, ?_, rfl, rfl, rfl⟩
    rw [World.setPool_pools_of_ne htail.symm, World.setPool_pools_self]
  · simp only [List.forall_mem_append, List.forall_mem_singleton]
    exact ⟨hc.sized, by rw [hq]; exact hn⟩
  · intro b hb
    simp only [World.setPool_mapped, World.map_mapped, List.mem_cons]
    rcases List.mem_cons.mp hb with rfl | hb
    · exact ⟨by omega, .inl rfl⟩
    · have hold : b ∈ tail :: used.map Prod.fst := by simpa [or_comm] using hb
      exact ⟨(hc.placed b hold).1, .inr (.inr (hc.placed b hold).2)⟩
  · simp only [List.forall_mem_append, List.forall_mem_singleton]
    refine ⟨?_, ?_⟩
    · intro x hx
      obtain ⟨h1, h2, h3, h4⟩ := hc.zoned x hx
      exact ⟨h1, h2, h3, by simp [h4]⟩
    · rw [hqzone]
      exact ⟨by rw [hq]; exact hzpos, hzlen, by rw [hq]; exact hzle, by simp⟩
  · rw [List.pairwise_append]
    refine ⟨hc.apart, List.pairwise_singleton .., ?_⟩
    intro x hx y hy
    rw [List.mem_singleton.mp hy, hqzone]
    exact hzapart _ (hc.zoned x hx).2.2.2

end Redx.Allocator
