import Redx.Allocator.RoundTrip

/-!
# Requests that throw

A request for which one of the two `mmap` calls fails leaves `operator new` by an exception. The
last pool then keeps the size and the start that were stored before the check, and the mutex
stays locked. The other exceptions end the process, since `operator delete` is declared `throw()`.
-/
namespace Redx.Allocator
open Library

/-- Calls of any size and any address after which the process goes on. -/
inductive Calls (k : Kernel) (heap : ℕ) : World → Call → World → Prop
  | new {w w' : World} {fuel n a : ℕ} :
      operatorNew k heap fuel w n = some (.ok a, w') → Calls k heap w (.new n) w'
  | threw {w w' : World} {fuel n : ℕ} :
      operatorNew k heap fuel w n = some (.error .badAlloc, w') → Calls k heap w (.new n) w'
  | delete {w w' : World} {fuel a : ℕ} : a < 2 ^ 64 →
      operatorDelete heap fuel w a = some (.ok (), w') → Calls k heap w (.delete a) w'

/-- The pool has been given a start: the address of its zone, which is mapped, or what `mmap`
returned when it failed. -/
def Settled (w : World) (p : MemPool) : Prop :=
  p.start = mapFailed ∨
    0 < p.start ∧ p.start + p.zone.length ≤ 2 ^ 64 ∧ p.zone ∈ w.mapped

/-- The mutex is held and every pool, the last one included, has been given a start. -/
structure Thrown (w : World) (heap : ℕ) (pools : List (ℕ × MemPool)) : Prop where
  locked : w.locked = true
  linked : Linked w.pools MemPool.next 0 heap pools
  settled : ∀ x ∈ pools, Settled w x.2

variable {k : Kernel} {w w' : World} {heap tail a n fuel : ℕ} {used : List (ℕ × MemPool)}
  {p : MemPool}

theorem locked_error {α : Type} {call : World → Option (Outcome α)} {e : Exit}
    (h : locked w call = some (.error e, w')) :
    w.locked = true ∧ e = .deadlock ∨
      w.locked = false ∧ call { w with locked := true } = some (.error e, w') := by
  unfold locked at h
  split at h
  · rename_i hl
    exact .inl ⟨hl, by simpa using congrArg (Option.map Prod.fst) h.symm⟩
  · rename_i hl
    split at h
    · cases h
    · rename_i e' v hv
      obtain ⟨he, rfl⟩ := Prod.mk.inj (Option.some.inj h)
      obtain rfl : e' = e := Except.error.inj he
      exact .inr ⟨by simpa using hl, hv⟩
    · cases h

/-- Once the mutex is held, every call waits for it. -/
theorem locked_deadlock {α : Type} (hw : w.locked = true) (call : World → Option (Outcome α)) :
    locked w call = some (.error .deadlock, w) := by
  rw [locked, if_pos hw]

/-- The last pool is not initialised, and its link ends the chain. -/
theorem Chain.all_linked (hc : Chain w heap used tail) (hp : w.pools tail = some p)
    (hnext : p.next = 0) : Linked w.pools MemPool.next 0 heap (used ++ [(tail, p)]) := by
  have htail := (hc.placed tail List.mem_cons_self).1
  refine hc.linked.append ?_ (.node htail hp (hnext ▸ .done))
  intro x hx
  exact (hc.placed x.1 (List.mem_cons_of_mem _ (List.mem_map_of_mem hx))).1

theorem Chain.settled (hc : Chain w heap used tail) {x : ℕ × MemPool} (hx : x ∈ used) :
    Settled w x.2 := by
  obtain ⟨hpos, -, hle, hmem⟩ := hc.zoned x hx
  exact .inr ⟨hpos, hle, hmem⟩

theorem Thrown.start_ne_zero {pools : List (ℕ × MemPool)} (ht : Thrown w heap pools)
    {x : ℕ × MemPool} (hx : x ∈ pools) : x.2.start ≠ 0 := by
  rcases ht.settled x hx with h | ⟨h, -⟩
  · rw [h]
    decide
  · omega

/-- A request throws only when it has reached the last pool. -/
theorem Chain.allocate_throws (hc : Chain w heap used tail) {e : Exit}
    (h : allocate k fuel w heap n = some (.error e, w')) :
    (∀ x ∈ used, x.2.Passes n) ∧ ∃ p, w.pools tail = some p ∧ p.next = 0 ∧
      Grows k w tail p n (.error e, w') := by
  obtain ⟨p, hp, hsize, hnext, -⟩ := hc.last
  have hmono := allocate_mono h (Nat.le_max_left fuel (used.length + 1))
  have hf : used.length < max fuel (used.length + 1) := by omega
  rcases allocate_linked (k := k) (n := n) hc.linked hp hsize hc.sized hf with
    ⟨l₁, b, q, l₂, q', i, -, -, -, -, -, heq⟩ | ⟨hall, out, hout, heq⟩
  · have := heq.symm.trans hmono
    simp at this
  · obtain rfl : out = (.error e, w') := Option.some.inj (heq.symm.trans hmono)
    exact ⟨hall, p, hp, hnext, hout⟩

/-- What a failed request leaves when it held the mutex. -/
theorem Grows.thrown (hc : Chain w heap used tail) (hw : w.locked = true)
    (hp : w.pools tail = some p) (hnext : p.next = 0) {e : Exit}
    (h : Grows k w tail p n (.error e, w')) :
    e = .badAlloc ∧ ∃ p', Thrown w' heap (used ++ [(tail, p')]) := by
  have htail := (hc.placed tail List.mem_cons_self).1
  have hstay : ∀ {v : World} {p' : MemPool}, v.pools = w.pools → p'.next = 0 →
      Linked (v.setPool tail p').pools MemPool.next 0 heap (used ++ [(tail, p')]) := by
    intro v p' hv hp'
    have hall := hc.all_linked hp hnext
    have : Linked (Function.update w.pools tail (some p')) MemPool.next 0 heap
        (used ++ [(tail, p')]) := hall.replace (by rw [hp', hnext])
    rwa [← hv] at this
  cases h with
  | noZone =>
    refine ⟨rfl, _, hw, hstay rfl hnext, ?_⟩
    simp only [List.forall_mem_append, List.forall_mem_singleton]
    exact ⟨fun x hx => hc.settled hx, .inl rfl⟩
  | @noPool start hz =>
    obtain ⟨-, hpos, hle, -⟩ := k.fresh hz
    refine ⟨rfl, _, hw, hstay rfl hnext, ?_⟩
    simp only [List.forall_mem_append, List.forall_mem_singleton]
    refine ⟨?_, .inr ⟨hpos, hle, List.mem_cons_self⟩⟩
    intro x hx
    rcases hc.settled hx with h | ⟨h₁, h₂, h₃⟩
    · exact .inl h
    · exact .inr ⟨h₁, h₂, List.mem_cons_of_mem _ h₃⟩

/-- A request that throws under the mutex leaves it locked. -/
theorem Chain.operatorNew_throws (hc : Chain w heap used tail) {e : Exit}
    (hl : w.locked = false) (h : operatorNew k heap fuel w n = some (.error e, w')) :
    e = .badAlloc ∧ ∃ pools, Thrown w' heap pools := by
  have hlock : Chain { w with locked := true } heap used tail := hc.of_eq rfl rfl
  rcases locked_error h with ⟨hw, -⟩ | ⟨-, hcall⟩
  · rw [hl] at hw
    cases hw
  · obtain ⟨-, p, hp, hnext, hgrows⟩ := hlock.allocate_throws hcall
    obtain ⟨he, p', ht⟩ := hgrows.thrown hlock rfl hp hnext
    exact ⟨he, _, ht⟩

/-- Either the chain is in order and the mutex free, or a request has thrown. -/
def Calls.Inv (heap : ℕ) (w : World) : Prop :=
  (w.locked = false ∧ ∃ used tail, Chain w heap used tail) ∨ ∃ pools, Thrown w heap pools

theorem Calls.Inv.step {e : Call} (h : Calls.Inv heap w) (hs : Calls k heap w e w') :
    Calls.Inv heap w' := by
  rcases h with ⟨hl, used, tail, hc⟩ | ⟨pools, ht⟩
  · have hlock : Chain { w with locked := true } heap used tail := hc.of_eq rfl rfl
    cases hs with
    | new hcall =>
      obtain ⟨-, v, hv, rfl⟩ := locked_ok hcall
      have hn := (hlock.allocate_ok hv).pos hlock
      exact .inl ⟨rfl, (Returns.new hn hcall).chain ⟨used, tail, hc⟩⟩
    | threw hcall => exact .inr (hc.operatorNew_throws hl hcall).2
    | delete ha hcall =>
      obtain ⟨-, v, -, rfl⟩ := locked_ok hcall
      exact .inl ⟨rfl, (Returns.delete (k := k) ha hcall).chain ⟨used, tail, hc⟩⟩
  · -- the mutex is never released again
    have hdead := ht.locked
    cases hs with
    | new hcall => simp [operatorNew, locked_deadlock hdead] at hcall
    | threw hcall => simp [operatorNew, locked_deadlock hdead] at hcall
    | delete _ hcall => simp [operatorDelete, locked_deadlock hdead] at hcall

theorem Calls.inv (hheap : heap ≠ 0) (hr : Reachable (Calls k heap) (.initial heap) w) :
    Calls.Inv heap w :=
  hr.invariant (.inl ⟨rfl, [], heap, Chain.initial hheap⟩) fun _ _ _ hi hs => hi.step hs

end Redx.Allocator
