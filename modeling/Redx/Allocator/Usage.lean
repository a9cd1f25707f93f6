import Redx.Library.Lanes
import Redx.Library.Machine
import Redx.Allocator.Chain

/-!
# Reporting on the pools

`available_slots` counts the set bits of a map in parallel. `usage`, in which the same loop is
written out again, and `inject` follow the chain up to the pool that is not initialised.
-/
namespace Redx.Allocator
open Library

/-- The loop over the words of a map, in `available_slots` and in `usage`. -/
def MemPool.sum (pool : MemPool) : BitVec 32 :=
  (List.finRange maps).foldl (fun sum word => sum + popcount (pool.map word)) 0#32

def MemPool.availableSlots (pool : MemPool) : BitVec 32 := pool.sum

/-- The figures that `usage` lists for a pool. `Tcl_NewLongObj` takes each of them as a `long`; the
products are of type `size_t`, and the difference of an `int` and the sum is a `uint32_t`. -/
structure Usage where
  size : ℤ
  capacity : ℤ
  available : ℤ
  objects : ℤ
  deriving DecidableEq, Repr

def MemPool.figures (pool : MemPool) : Usage where
  size := toLong pool.size
  capacity := toLong (count * pool.size % 2 ^ 64 : ℕ)
  available := toLong (pool.sum.toNat * pool.size % 2 ^ 64 : ℕ)
  objects := toLong (BitVec.ofNat 32 count - pool.sum).toNat

/-- `MemPool::usage`: the elements appended to the list. -/
def usage : ℕ → World → ℕ → Option (Except Exit (List Usage))
  | 0, _, _ => none
  | fuel + 1, w, self =>
    match w.pools self with
    | none => some (.error .segfault)
    | some pool =>
      if pool.size = 0 then some (.ok [])
      else (usage fuel w pool.next).map fun rest => rest.map (pool.figures :: ·)

/-- The arguments of one call of an `Injector`. -/
structure Injection where
  objsize : ℕ
  allocated : ℕ
  available : ℕ
  deriving DecidableEq, Repr

/-- `Allocator::inject`, from a pool on: the calls of the injector. -/
def inject : ℕ → World → ℕ → Option (Except Exit (List Injection))
  | 0, _, _ => none
  | fuel + 1, w, pool =>
    if pool = 0 then some (.ok [])
    else
      match w.pools pool with
      | none => some (.error .segfault)
      | some p =>
        if p.size = 0 then some (.ok [])
        else (inject fuel w p.next).map fun rest =>
          rest.map (⟨p.size, count, p.availableSlots.toNat⟩ :: ·)

/-- The number of set bits of the map. -/
def MemPool.setBits (pool : MemPool) : ℕ := (List.range count).countP pool.isFree

variable {w : World} {heap tail a fuel : ℕ} {used : List (ℕ × MemPool)} {pool : MemPool}

theorem MemPool.setBits_le (pool : MemPool) : pool.setBits ≤ count := by
  refine List.countP_le_length.trans ?_
  rw [List.length_range]

/-- A sum of words' counts that stays below the word's range. -/
theorem toNat_foldl_popcount (map : Fin maps → BitVec 32) (words : List (Fin maps))
    (sum : BitVec 32) (h : sum.toNat + words.length * 32 < 2 ^ 32) :
    (words.foldl (fun sum word => sum + popcount (map word)) sum).toNat =
      sum.toNat + (words.map fun word => bitCount 32 (map word).toNat).sum := by
  induction words generalizing sum with
  | nil => simp
  | cons word words ih =>
    have hle : bitCount 32 (map word).toNat ≤ 32 :=
      List.countP_le_length.trans (List.length_range).le
    have hstep : (sum + popcount (map word)).toNat =
        sum.toNat + bitCount 32 (map word).toNat := by
      rw [BitVec.toNat_add, popcount_toNat]
      rw [List.length_cons] at h
      exact Nat.mod_eq_of_lt (by omega)
    rw [List.length_cons] at h
    rw [List.foldl_cons, ih _ (by omega), hstep, List.map_cons, List.sum_cons, Nat.add_assoc]

/-- The loop counts the set bits of the map. -/
theorem MemPool.sum_toNat (pool : MemPool) : pool.sum.toNat = pool.setBits := by
  have hfits : (0#32).toNat + (List.finRange maps).length * 32 < 2 ^ 32 := by
    rw [List.length_finRange]
    decide
  rw [MemPool.sum, toNat_foldl_popcount _ _ _ hfits, setBits]
  have hcount := Bitmap.countP_test pool.map
  exact (Nat.zero_add _).trans hcount.symm

theorem MemPool.figures_objects (pool : MemPool) :
    pool.figures.objects = (count - pool.availableSlots.toNat : ℕ) := by
  have hle : pool.availableSlots.toNat ≤ count := pool.sum_toNat.trans_le pool.setBits_le
  have hsub : (BitVec.ofNat 32 count - pool.sum).toNat = count - pool.availableSlots.toNat := by
    rw [BitVec.toNat_sub_of_le (BitVec.le_def.mpr hle)]
    rfl
  have hlt : count - pool.availableSlots.toNat ≤ 512 := Nat.sub_le _ _
  rw [figures, hsub]
  dsimp only
  generalize count - pool.availableSlots.toNat = n at hlt
  exact toLong_eq_self (by omega) (by omega)

/-- A `long` holds the product if it is below 2^63, and otherwise another number. -/
theorem MemPool.figures_available_iff (pool : MemPool) :
    pool.figures.available = (pool.availableSlots.toNat * pool.size : ℕ) ↔
      pool.availableSlots.toNat * pool.size < 2 ^ 63 := by
  have hmod : pool.figures.available = toLong (pool.availableSlots.toNat * pool.size : ℕ) := by
    rw [figures]
    dsimp only
    rw [Int.natCast_emod]
    exact Int.emod_bmod ..
  rw [hmod]
  generalize pool.availableSlots.toNat * pool.size = n
  constructor
  · intro h
    have hlt := (toLong_range n).2
    omega
  · intro h
    exact toLong_eq_self (by omega) (by omega)

section Walks

variable (hc : Chain w heap used tail) (hf : used.length < fuel)
include hc hf

/-- `usage` appends one element for each initialised pool. -/
theorem Chain.usage_eq :
    usage fuel w heap = some (.ok (used.map fun x => x.2.figures)) := by
  obtain ⟨p, hp, hsize, -⟩ := hc.last
  have hwalk {a : ℕ} {l : List (ℕ × MemPool)} (hl : Linked w.pools MemPool.next tail a l)
      (hs : ∀ x ∈ l, x.2.size ≠ 0) : ∀ fuel, l.length < fuel →
        usage fuel w a = some (.ok (l.map fun x => x.2.figures)) := by
    induction hl with
    | done =>
      rintro (_ | fuel) hf
      · exact absurd hf (Nat.not_lt_zero _)
      · rw [usage, hp]
        exact if_pos hsize
    | @node a v l ha hv hl ih =>
      rintro (_ | fuel) hf
      · exact absurd hf (Nat.not_lt_zero _)
      · have hrest := ih (fun x hx => hs x (List.mem_cons_of_mem _ hx)) fuel
          (Nat.lt_of_succ_lt_succ hf)
        rw [usage, hv]
        dsimp only
        rw [if_neg (hs _ List.mem_cons_self), hrest]
        rfl
  exact hwalk hc.linked hc.sized fuel hf

/-- `inject` calls the injector once for each initialised pool. -/
theorem Chain.inject_eq : inject fuel w heap =
    some (.ok (used.map fun x => ⟨x.2.size, count, x.2.availableSlots.toNat⟩)) := by
  obtain ⟨p, hp, hsize, -⟩ := hc.last
  have hwalk {a : ℕ} {l : List (ℕ × MemPool)} (hl : Linked w.pools MemPool.next tail a l)
      (hs : ∀ x ∈ l, x.1 ≠ 0 ∧ x.2.size ≠ 0) : ∀ fuel, l.length < fuel → inject fuel w a =
        some (.ok (l.map fun x => ⟨x.2.size, count, x.2.availableSlots.toNat⟩)) := by
    induction hl with
    | done =>
      rintro (_ | fuel) hf
      · exact absurd hf (Nat.not_lt_zero _)
      · rw [inject, if_neg (hc.placed tail List.mem_cons_self).1, hp]
        exact if_pos hsize
    | @node a v l ha hv hl ih =>
      rintro (_ | fuel) hf
      · exact absurd hf (Nat.not_lt_zero _)
      · have hrest := ih (fun x hx => hs x (List.mem_cons_of_mem _ hx)) fuel
          (Nat.lt_of_succ_lt_succ hf)
        obtain ⟨hnull, hsized⟩ := hs _ List.mem_cons_self
        rw [inject, if_neg hnull, hv]
        dsimp only
        rw [if_neg hsized, hrest]
        rfl
  refine hwalk hc.linked (fun x hx => ⟨?_, hc.sized x hx⟩) fuel hf
  exact (hc.placed x.1 (List.mem_cons_of_mem _ (List.mem_map_of_mem hx))).1

end Walks

end Redx.Allocator
