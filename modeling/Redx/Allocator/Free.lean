import Redx.Allocator.Chain

/-!
# What a release does to the chain

`free` works in the first pool whose 32-bit range holds the object. When no initialised pool's
range does, it ends in the last pool, whose range test admits every address and whose size of
zero it divides by.
-/
namespace Redx.Allocator
open Library

variable {w w' : World} {heap tail a object fuel : ℕ} {used : List (ℕ × MemPool)}

theorem last_not_misses {p : MemPool} (hsize : p.size = 0) (hstart : p.start = 0)
    (ho : object < 2 ^ 64) : ¬ p.Misses object := by
  have hlast : p.last = 2 ^ 64 - 1 := by
    simp [MemPool.last, MemPool.length, hsize, hstart]
  rw [MemPool.Misses, hlast, hstart]
  omega

theorem free_linked (hl : Linked w.pools MemPool.next tail a used)
    (hlast : ∃ p, w.pools tail = some p ∧ p.size = 0 ∧ p.next = 0 ∧ p.start = 0)
    (ht : tail ≠ 0) (hpos : ∀ x ∈ used, x.1 ≠ 0) (ho : object < 2 ^ 64)
    (hf : used.length < fuel) :
    (∃ l₁ b q l₂, used = l₁ ++ (b, q) :: l₂ ∧ (∀ x ∈ l₁, x.2.Misses object) ∧
      ¬ q.Misses object ∧ free fuel w a object = some (match q.release object with
        | .error e => (.error e, w)
        | .ok q' => (.ok (), w.setPool b q'))) ∨
    ((∀ x ∈ used, x.2.Misses object) ∧
      free fuel w a object = some (.error .divideError, w)) := by
  obtain ⟨fuel, rfl⟩ := Nat.exists_eq_succ_of_ne_zero (by omega : fuel ≠ 0)
  induction hl generalizing fuel with
  | done =>
    obtain ⟨p, hp, hsize, -, hstart⟩ := hlast
    refine .inr ⟨by simp, ?_⟩
    rw [free, hp]
    dsimp only
    rw [if_neg (last_not_misses hsize hstart ho), MemPool.release]
    simp [hsize]
  | @node a v l ha hv hl ih =>
    by_cases hm : v.Misses object
    · have hnext : v.next ≠ 0 := by
        cases hl with
        | done => exact ht
        | node => exact hpos _ (List.mem_cons_of_mem _ List.mem_cons_self)
      have hstep : free (fuel + 1) w a object = free fuel w v.next object := by
        rw [free, hv]
        dsimp only
        rw [if_pos hm, if_neg hnext]
      simp only [List.length_cons] at hf
      obtain ⟨fuel, rfl⟩ := Nat.exists_eq_succ_of_ne_zero (by omega : fuel ≠ 0)
      rw [hstep]
      rcases ih (fun x hx => hpos x (List.mem_cons_of_mem _ hx)) fuel (by omega) with
        ⟨l₁, b, q, l₂, rfl, hpre, hrest⟩ | ⟨hall, heq⟩
      · exact .inl ⟨(a, v) :: l₁, b, q, l₂, rfl, List.forall_mem_cons.mpr ⟨hm, hpre⟩, hrest⟩
      · exact .inr ⟨List.forall_mem_cons.mpr ⟨hm, hall⟩, heq⟩
    · refine .inl ⟨[], a, v, l, rfl, by simp, hm, ?_⟩
      rw [free, hv]
      dsimp only
      rw [if_neg hm]
      cases v.release object <;> rfl

/-- More fuel does not change a result. -/
theorem free_mono {fuel' : ℕ} {out : Outcome Unit} (h : free fuel w a object = some out)
    (hle : fuel ≤ fuel') : free fuel' w a object = some out := by
  induction fuel generalizing fuel' a with
  | zero => cases h
  | succ fuel ih =>
    obtain ⟨fuel', rfl⟩ := Nat.exists_eq_succ_of_ne_zero (by omega : fuel' ≠ 0)
    rw [free] at h ⊢
    cases hp : w.pools a with
    | none => rw [hp] at h; exact h
    | some p =>
      simp only [hp] at h ⊢
      by_cases hm : p.Misses object
      · rw [if_pos hm] at h ⊢
        by_cases hn : p.next = 0
        · rw [if_pos hn] at h ⊢
          exact h
        · rw [if_neg hn] at h ⊢
          exact ih h (by omega)
      · rw [if_neg hm] at h ⊢
        exact h

/-- The outcomes of releasing an address on a chain: the bit of the slot that the address lies
in gets set, or was set before, in the first pool whose range holds it; or none does. -/
inductive Releases (w : World) (used : List (ℕ × MemPool)) (object : ℕ) : Outcome Unit → Prop
  | freed {l₁ l₂ : List (ℕ × MemPool)} {b : ℕ} {q q' : MemPool} :
      used = l₁ ++ (b, q) :: l₂ → q.start ≤ object → object < q.start + q.length →
      q.isFree ((object - q.start) / q.size) = false → q' = { q with map := q'.map } →
      (∀ j, q'.isFree j = (q.isFree j || decide (j = (object - q.start) / q.size))) →
      Releases w used object (.ok (), w.setPool b q')
  | twice {x : ℕ × MemPool} : x ∈ used → x.2.start ≤ object →
      object < x.2.start + x.2.length →
      x.2.isFree ((object - x.2.start) / x.2.size) = true →
      Releases w used object (.error .doubleFree, w)
  | foreign : (∀ x ∈ used, x.2.Misses object) →
      Releases w used object (.error .divideError, w)

/-- With fuel for the whole chain `free` finishes. -/
theorem Chain.free_finishes (hc : Chain w heap used tail) (ho : object < 2 ^ 64)
    (hf : used.length < fuel) :
    ∃ out, free fuel w heap object = some out ∧ Releases w used object out := by
  have hpos : ∀ x ∈ used, x.1 ≠ 0 := fun x hx =>
    (hc.placed x.1 (List.mem_cons_of_mem _ (List.mem_map_of_mem hx))).1
  rcases free_linked hc.linked hc.last (hc.placed tail List.mem_cons_self).1 hpos ho hf with
    ⟨l₁, b, q, l₂, hu, -, hm, heq⟩ | ⟨hall, heq⟩
  · have hmem : (b, q) ∈ used := by simp [hu]
    obtain ⟨hstart, -, hle, -⟩ := hc.zoned _ hmem
    obtain ⟨hlo, hhi⟩ := (MemPool.not_misses_iff hstart hle).mp hm
    rcases MemPool.release_spec (hc.sized _ hmem) hlo hhi with
      ⟨hfree, hr⟩ | ⟨hfree, q', hr, hq', hbits⟩
    · exact ⟨_, by rw [heq, hr], .twice hmem hlo hhi hfree⟩
    · exact ⟨_, by rw [heq, hr], .freed hu hlo hhi hfree hq' hbits⟩
  · exact ⟨_, heq, .foreign hall⟩

/-- Whatever `free` does on a chain, it is one of these outcomes. -/
theorem Chain.free_releases (hc : Chain w heap used tail) (ho : object < 2 ^ 64)
    {out : Outcome Unit} (h : free fuel w heap object = some out) : Releases w used object out := by
  have hmono := free_mono h (Nat.le_max_left fuel (used.length + 1))
  have hf : used.length < max fuel (used.length + 1) := by omega
  obtain ⟨out', heq, hr⟩ := hc.free_finishes ho hf
  obtain rfl : out' = out := Option.some.inj (heq.symm.trans hmono)
  exact hr

end Redx.Allocator
