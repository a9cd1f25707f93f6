import Redx.Allocator.Chain

/-!
# What a request does to the chain

`allocate` serves a request from the first pool of its size that has a free slot, or from a new
zone when it reaches the last pool. The recursion ends there, so fuel for the pools of the chain
is always enough.
-/
namespace Redx.Allocator
open Library

variable {k : Kernel} {w w' : World} {heap tail a n fuel : ℕ} {used : List (ℕ × MemPool)}

/-- The outcomes of a request that reached the last pool `p`: one of its two `mmap` calls
failed, or it serves slot 0 of a new zone and a new last pool follows it. -/
inductive Grows (k : Kernel) (w : World) (tail : ℕ) (p : MemPool) (n : ℕ) :
    Outcome ℕ → Prop
  | noZone : k.mmap w.mapped (n * count % 2 ^ 64) = none →
      Grows k w tail p n
        (.error .badAlloc, w.setPool tail { p with size := n, start := mapFailed })
  | noPool {start : ℕ} : k.mmap w.mapped (n * count % 2 ^ 64) = some start →
      k.mmap (⟨start, n * count % 2 ^ 64⟩ :: w.mapped) sizeofMemPool = none →
      Grows k w tail p n (.error .badAlloc,
        (w.map ⟨start, n * count % 2 ^ 64⟩).setPool tail (.opened n p.next start))
  | served {start next : ℕ} {q : MemPool} :
      k.mmap w.mapped (n * count % 2 ^ 64) = some start →
      k.mmap (⟨start, n * count % 2 ^ 64⟩ :: w.mapped) sizeofMemPool = some next →
      (MemPool.opened n next start).take = some (start, q) →
      Grows k w tail p n (.ok start,
        (((w.map ⟨start, n * count % 2 ^ 64⟩).map ⟨next, sizeofMemPool⟩).setPool next .new).setPool
          tail q)

theorem opened_take {next start : ℕ} (hz : k.mmap w.mapped (n * count % 2 ^ 64) = some start) :
    ∃ q, (MemPool.opened n next start).take = some (start, q) := by
  obtain ⟨hpos, _, hle, _⟩ := k.fresh hz
  have hslot : (MemPool.opened n next start).slot 0 = start := by
    simp only [MemPool.slot, MemPool.opened, Nat.zero_mul, Nat.add_zero]
    exact Nat.mod_eq_of_lt (by omega)
  obtain ⟨q, hq, _⟩ := (MemPool.opened_firstFree n next start).take
  exact ⟨q, by rw [hq, hslot]⟩

theorem allocate_last {p : MemPool} (hp : w.pools tail = some p) (hsize : p.size = 0) :
    ∃ out, Grows k w tail p n out ∧ allocate k (fuel + 1) w tail n = some out := by
  rw [allocate, hp]
  dsimp only
  rw [if_pos hsize, initializePool]
  cases hz : k.mmap w.mapped (n * count % 2 ^ 64) with
  | none => exact ⟨_, .noZone hz, rfl⟩
  | some start =>
    dsimp only
    rw [newMemPool]
    simp only [World.setPool_mapped, World.map_mapped]
    cases hq : k.mmap (⟨start, n * count % 2 ^ 64⟩ :: w.mapped) sizeofMemPool with
    | none => exact ⟨_, .noPool hz hq, rfl⟩
    | some next =>
      obtain ⟨q, ht⟩ : ∃ q, (MemPool.opened n next start).take = some (start, q) := opened_take hz
      refine ⟨_, .served hz hq ht, ?_⟩
      simp only [World.setPool_pools_self]
      rw [if_neg (by simp)]
      rw [show MemPool.mk n next start (fun _ => 0xFFFFFFFF#32) = .opened n next start from rfl, ht]
      dsimp only
      rw [World.setPool_setPool]
      exact congrArg (fun v => some (Except.ok start, v))
        (World.setPool_comm_last ((w.map ⟨start, _⟩).map ⟨next, _⟩) tail next _ _ q)

/-- A pool that has been initialised serves a request of its size if it has a free slot, and
otherwise hands it on. -/
theorem allocate_initialized {v : MemPool} (hv : w.pools a = some v) (hs : v.size ≠ 0) :
    allocate k (fuel + 1) w a n =
      if n ≠ v.size then allocate k fuel w v.next n
      else v.take.elim (allocate k fuel w v.next n) fun r =>
        some (.ok r.1, w.setPool a r.2) := by
  rw [allocate, hv]
  dsimp only
  rw [if_neg hs]
  dsimp only
  rw [hv]
  dsimp only
  cases v.take <;> rfl

/-- A request entering the chain at `a` is served by the first pool of its size that has a free
slot, or else reaches the last pool. -/
theorem allocate_linked (hl : Linked w.pools MemPool.next tail a used) {p : MemPool}
    (hp : w.pools tail = some p) (hsize : p.size = 0)
    (hs : ∀ x ∈ used, x.2.size ≠ 0) (hf : used.length < fuel) :
    (∃ l₁ b q l₂ q' i, used = l₁ ++ (b, q) :: l₂ ∧ (∀ x ∈ l₁, x.2.Passes n) ∧ q.size = n ∧
      q.FirstFree i ∧ q.take = some (q.slot i, q') ∧
      allocate k fuel w a n = some (.ok (q.slot i), w.setPool b q')) ∨
    ((∀ x ∈ used, x.2.Passes n) ∧
      ∃ out, Grows k w tail p n out ∧ allocate k fuel w a n = some out) := by
  obtain ⟨fuel, rfl⟩ := Nat.exists_eq_succ_of_ne_zero (by omega : fuel ≠ 0)
  induction hl generalizing fuel with
  | done => exact .inr ⟨by simp, allocate_last hp hsize⟩
  | @node a v l ha hv hl ih =>
    have hstep : v.Passes n → allocate k (fuel + 1) w a n = allocate k fuel w v.next n := by
      intro hpass
      rw [allocate_initialized hv (hs _ List.mem_cons_self)]
      split
      · rfl
      · rename_i he
        rw [MemPool.take_eq_none.mpr (hpass (not_not.mp he).symm), Option.elim_none]
    by_cases hpass : v.Passes n
    · -- the rest of the chain decides
      simp only [List.length_cons] at hf
      obtain ⟨fuel, rfl⟩ := Nat.exists_eq_succ_of_ne_zero (by omega : fuel ≠ 0)
      rw [hstep hpass]
      rcases ih (fun x hx => hs x (List.mem_cons_of_mem _ hx)) fuel (by omega) with
        ⟨l₁, b, q, l₂, q', i, rfl, hpre, hrest⟩ | ⟨hall, hout⟩
      · refine .inl ⟨(a, v) :: l₁, b, q, l₂, q', i, rfl, ?_, hrest⟩
        exact List.forall_mem_cons.mpr ⟨hpass, hpre⟩
      · refine .inr ⟨?_, hout⟩
        exact List.forall_mem_cons.mpr ⟨hpass, hall⟩
    · -- this pool has the right size and a free slot
      simp only [MemPool.Passes, not_forall, Bool.not_eq_false] at hpass
      obtain ⟨hsz, j, hj⟩ := hpass
      obtain ⟨i, hi⟩ := MemPool.exists_firstFree hj
      obtain ⟨q', ht, _⟩ := hi.take
      refine .inl ⟨[], a, v, l, q', i, rfl, by simp, hsz, hi, ht, ?_⟩
      rw [allocate_initialized hv (hs _ List.mem_cons_self), if_neg (by simp [hsz]), ht,
        Option.elim_some]

/-- What a successful request does to a chain: it takes the first free slot of the first pool
of its size that has one, or slot 0 of a new pool when there is none. -/
inductive Serves (k : Kernel) (w : World) (tail : ℕ) (used : List (ℕ × MemPool)) (n : ℕ) :
    ℕ → World → Prop
  | hit {l₁ l₂ : List (ℕ × MemPool)} {b i : ℕ} {q q' : MemPool} :
      used = l₁ ++ (b, q) :: l₂ → (∀ x ∈ l₁, x.2.Passes n) → q.size = n → q.FirstFree i →
      q.take = some (q.slot i, q') → Serves k w tail used n (q.slot i) (w.setPool b q')
  | grown {start next : ℕ} {q : MemPool} : (∀ x ∈ used, x.2.Passes n) →
      k.mmap w.mapped (n * count % 2 ^ 64) = some start →
      k.mmap (⟨start, n * count % 2 ^ 64⟩ :: w.mapped) sizeofMemPool = some next →
      (MemPool.opened n next start).take = some (start, q) →
      Serves k w tail used n start
        ((((w.map ⟨start, n * count % 2 ^ 64⟩).map ⟨next, sizeofMemPool⟩).setPool next
          .new).setPool tail q)

/-- No request for objects of size zero is served: no pool has that size, and `mmap` refuses a
zone of length zero. -/
theorem Serves.pos (h : Serves k w tail used n a w') (hc : Chain w heap used tail) : 0 < n := by
  cases h with
  | hit hu _ hsz =>
    subst hu
    have := hc.sized (_, _) (List.mem_append_right _ List.mem_cons_self)
    dsimp only at this
    omega
  | grown _ hz =>
    have hpos := (k.fresh hz).1
    refine Nat.pos_of_ne_zero ?_
    rintro rfl
    simp at hpos

/-- The slot that the next request for objects of size `n` takes: the first free one of the first
pool of that size that has one, and slot 0 of a new pool when there is none. -/
def nextSlot (n : ℕ) (used : List (ℕ × MemPool)) : ℕ :=
  (used.findSome? fun x => if x.2.size = n then x.2.firstFree else none).getD 0

theorem nextSlot_none (hall : ∀ x ∈ used, x.2.Passes n) :
    used.findSome? (fun x => if x.2.size = n then x.2.firstFree else none) = none := by
  rw [List.findSome?_eq_none_iff]
  intro x hx
  split
  · rename_i hsize
    exact MemPool.firstFree_eq_none.mpr (hall x hx hsize)
  · rfl

theorem nextSlot_hit {l₁ l₂ : List (ℕ × MemPool)} {b i : ℕ} {q : MemPool}
    (hpre : ∀ x ∈ l₁, x.2.Passes n) (hq : q.size = n) (hi : q.FirstFree i) :
    nextSlot n (l₁ ++ (b, q) :: l₂) = i := by
  rw [nextSlot, List.findSome?_append, nextSlot_none hpre, Option.none_or,
    List.findSome?_cons_of_isSome]
  all_goals rw [if_pos hq, MemPool.firstFree_eq_some.mpr hi]
  all_goals rfl

theorem nextSlot_grown (hall : ∀ x ∈ used, x.2.Passes n) : nextSlot n used = 0 := by
  rw [nextSlot, nextSlot_none hall, Option.getD_none]

/-- A served request clears one bit of a pool `q`, at `b`, that was in the chain or has been
appended to it with all its slots free. -/
theorem Serves.takes (h : Serves k w tail used n a w') (hc : Chain w heap used tail)
    (hn : 0 < n) :
    ∃ l₁ b q q' l₂ tail', Chain w' heap (l₁ ++ (b, q') :: l₂) tail' ∧ q.size = n ∧
      q.isFree (nextSlot n used) = true ∧ a = q.slot (nextSlot n used) ∧
      q' = { q with map := q'.map } ∧
      (∀ j, q'.isFree j = (q.isFree j && decide (j ≠ nextSlot n used))) ∧
      (l₁ ++ (b, q) :: l₂ = used ∨
        l₁ ++ (b, q) :: l₂ = used ++ [(b, q)] ∧ ∀ i < count, q.isFree i = true) := by
  cases h with
  | @hit l₁ l₂ b i q q' hu hpre hsz hi ht =>
    subst hu
    obtain ⟨q'', ht', hq, hbits⟩ := hi.take
    obtain rfl : q'' = q' := by simpa [ht'] using ht
    rw [nextSlot_hit hpre hsz hi]
    exact ⟨l₁, b, q, q'', l₂, tail, hc.setMap hq, hsz, hi.1, rfl, hq, hbits, .inl rfl⟩
  | @grown start next q' hall hz ho ht =>
    have hfirst := MemPool.opened_firstFree n next a
    obtain ⟨q'', ht', hq, hbits⟩ := hfirst.take
    rw [ht'] at ht
    obtain ⟨ha, rfl⟩ := Prod.mk.inj (Option.some.inj ht)
    rw [nextSlot_grown hall]
    refine ⟨used, tail, _, q'', [], next, hc.grow hn.ne' hz ho hq, rfl, hfirst.1, ha.symm, hq,
      hbits, .inr ⟨rfl, ?_⟩⟩
    intro i hi
    rw [MemPool.opened_isFree, decide_eq_true hi]

/-- With fuel for the whole chain `allocate` finishes: it serves the request or throws. -/
theorem Chain.allocate_finishes (hc : Chain w heap used tail) (hf : used.length < fuel) :
    (∃ a w', allocate k fuel w heap n = some (.ok a, w') ∧ Serves k w tail used n a w') ∨
    (∃ w', allocate k fuel w heap n = some (.error .badAlloc, w')) := by
  obtain ⟨p, hp, hsize, -, -⟩ := hc.last
  rcases allocate_linked (k := k) (n := n) hc.linked hp hsize hc.sized hf with
    ⟨l₁, b, q, l₂, q', i, hu, hpre, hsz, hi, ht, heq⟩ | ⟨hall, out, hout, heq⟩
  · exact .inl ⟨_, _, heq, .hit hu hpre hsz hi ht⟩
  · cases hout with
    | noZone => exact .inr ⟨_, heq⟩
    | noPool => exact .inr ⟨_, heq⟩
    | served hz ho ht => exact .inl ⟨_, _, heq, .grown hall hz ho ht⟩

/-- More fuel does not change a result. -/
theorem allocate_mono {fuel' : ℕ} {out : Outcome ℕ} (h : allocate k fuel w a n = some out)
    (hle : fuel ≤ fuel') : allocate k fuel' w a n = some out := by
  induction fuel generalizing fuel' w a with
  | zero => cases h
  | succ fuel ih =>
    obtain ⟨fuel', rfl⟩ := Nat.exists_eq_succ_of_ne_zero (by omega : fuel' ≠ 0)
    have hle : fuel ≤ fuel' := by omega
    rw [allocate] at h ⊢
    cases hp : w.pools a with
    | none => rw [hp] at h; exact h
    | some p =>
      simp only [hp] at h ⊢
      generalize (if p.size = 0 then initializePool k w a p n else (.ok (), w)) = r at h ⊢
      obtain ⟨_ | _, v⟩ := r
      · exact h
      · dsimp only at h ⊢
        cases hq : v.pools a with
        | none => rw [hq] at h; exact h
        | some q =>
          simp only [hq] at h ⊢
          by_cases hne : n ≠ q.size
          · rw [if_pos hne] at h ⊢
            exact ih h hle
          · rw [if_neg hne] at h ⊢
            cases ht : q.take with
            | none => rw [ht] at h; exact ih h hle
            | some x => rw [ht] at h; exact h

/-- Whenever `allocate` returns an address on a chain, the request was served from the chain. -/
theorem Chain.allocate_ok (hc : Chain w heap used tail)
    (h : allocate k fuel w heap n = some (.ok a, w')) : Serves k w tail used n a w' := by
  have hmono := allocate_mono h (Nat.le_max_left fuel (used.length + 1))
  have hf : used.length < max fuel (used.length + 1) := by omega
  rcases hc.allocate_finishes (k := k) (n := n) hf with ⟨b, v, heq, hs⟩ | ⟨v, heq⟩
  · obtain ⟨rfl, rfl⟩ : b = a ∧ v = w' := by simpa using heq.symm.trans hmono
    exact hs
  · have := heq.symm.trans hmono
    simp at this

end Redx.Allocator
