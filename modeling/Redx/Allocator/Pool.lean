import Redx.Library.Bitmap
import Redx.Library.Region
import Mathlib.Algebra.Group.Nat.Defs

/-!
# Pools of the slab allocator

A `MemPool` hands out the 512 slots of one mapped zone and keeps a bit for each slot, set while
the slot is free. Pools are linked through `next`; the last one has size zero until a request
reaches it. Pointers and `size_t` values are naturals below `2 ^ 64`, and the arithmetic that
wraps in the source wraps here.
-/
namespace Redx.Allocator
open Library

def count : ℕ := 512
def maps : ℕ := count / 32

/-- `sizeof(MemPool)`: three words and the sixteen map words. -/
def sizeofMemPool : ℕ := 88

/-- What `mmap` returns when it fails, `(void *)-1`. -/
def mapFailed : ℕ := 2 ^ 64 - 1

structure MemPool where
  size : ℕ
  next : ℕ
  start : ℕ
  map : Fin maps → BitVec 32

/-- The object that the constructor leaves in freshly mapped, zeroed memory. -/
def MemPool.new : MemPool := { size := 0, next := 0, start := 0, map := fun _ => 0#32 }

/-- The ways in which a call does not return normally: the three exceptions, the signals for a
null pointer and for a division by zero, and waiting for a mutex that is never released. -/
inductive Exit where
  | badAlloc
  | invalidObject
  | doubleFree
  | segfault
  | divideError
  | deadlock
  deriving DecidableEq, Repr

/-- The pools in memory by address, the regions mapped so far and the allocator's mutex. -/
structure World where
  pools : ℕ → Option MemPool
  mapped : List Region
  locked : Bool

/-- The result of a call and the memory it leaves; an exception keeps the stores made before it. -/
abbrev Outcome (α : Type) := Except Exit α × World

/-- The kernel's side of `mmap`. What it answers may depend on everything mapped before. A
region it grants is not empty, fits the address space and is apart from all earlier ones. -/
structure Kernel where
  mmap : List Region → ℕ → Option ℕ
  fresh : ∀ {mapped : List Region} {length : ℕ} {address : ℕ},
    mmap mapped length = some address →
      0 < length ∧ 0 < address ∧ address + length ≤ 2 ^ 64 ∧
        ∀ r ∈ mapped, r.Apart ⟨address, length⟩

/-- The end of the regions mapped so far. -/
def mappedEnd : List Region → ℕ
  | [] => 4096
  | r :: rs => max (r.base + r.length) (mappedEnd rs)

theorem le_mappedEnd {rs : List Region} {r : Region} (h : r ∈ rs) :
    r.base + r.length ≤ mappedEnd rs := by
  induction h with
  | head => exact le_max_left ..
  | tail _ _ ih => exact ih.trans (le_max_right ..)

/-- The kernel that maps every region right after all earlier ones. -/
def Kernel.bump : Kernel where
  mmap mapped length :=
    if 0 < length ∧ mappedEnd mapped + length ≤ 2 ^ 64 then some (mappedEnd mapped) else none
  fresh := by
    intro mapped length address h
    have hpos : ∀ rs, 0 < mappedEnd rs := by
      intro rs
      induction rs with
      | nil => decide
      | cons r rs ih => exact ih.trans_le (le_max_right ..)
    split at h
    · rename_i hfit
      obtain rfl := Option.some.inj h
      exact ⟨hfit.1, hpos _, hfit.2, fun r hr => .inl (le_mappedEnd hr)⟩
    · cases h

namespace World

def setPool (w : World) (a : ℕ) (p : MemPool) : World :=
  { w with pools := Function.update w.pools a (some p) }

def map (w : World) (r : Region) : World := { w with mapped := r :: w.mapped }

@[simp] theorem setPool_pools_self (w : World) (a : ℕ) (p : MemPool) :
    (w.setPool a p).pools a = some p := Function.update_self ..

theorem setPool_pools_of_ne {w : World} {a b : ℕ} {p : MemPool} (h : b ≠ a) :
    (w.setPool a p).pools b = w.pools b := Function.update_of_ne h ..

@[simp] theorem setPool_mapped (w : World) (a : ℕ) (p : MemPool) :
    (w.setPool a p).mapped = w.mapped := rfl

@[simp] theorem map_mapped (w : World) (r : Region) : (w.map r).mapped = r :: w.mapped := rfl

theorem setPool_setPool (w : World) (a : ℕ) (p q : MemPool) :
    (w.setPool a p).setPool a q = w.setPool a q := by
  simp [setPool]

theorem setPool_comm_last (w : World) (a b : ℕ) (p q r : MemPool) :
    ((w.setPool a p).setPool b q).setPool a r = (w.setPool b q).setPool a r := by
  simp only [setPool, World.mk.injEq, and_self, and_true]
  funext c
  by_cases ha : c = a
  · subst ha
    simp
  · by_cases hb : c = b
    · subst hb
      simp [ha]
    · simp [ha, hb]

end World

/-- `new MemPool`: the class's own operator new, then the constructor. -/
def newMemPool (k : Kernel) (w : World) : Outcome ℕ :=
  match k.mmap w.mapped sizeofMemPool with
  | none => (.error .badAlloc, w)
  | some address => (.ok address, (w.map ⟨address, sizeofMemPool⟩).setPool address .new)

/-- `MemPool::initialize`: `size` and `start` are stored before the checks, so a throw leaves them
behind. -/
def initializePool (k : Kernel) (w : World) (self : ℕ) (pool : MemPool) (objectSize : ℕ) :
    Outcome Unit :=
  let zone := objectSize * count % 2 ^ 64
  match k.mmap w.mapped zone with
  | none =>
    (.error .badAlloc, w.setPool self { pool with size := objectSize, start := mapFailed })
  | some start =>
    let pool := { pool with size := objectSize, start := start, map := fun _ => 0xFFFFFFFF#32 }
    match newMemPool k ((w.map ⟨start, zone⟩).setPool self pool) with
    | (.error e, w) => (.error e, w)
    | (.ok next, w) => (.ok (), w.setPool self { pool with next := next })

/-- The search of `allocate` for a free slot: its address, and the pool without it. -/
def MemPool.take (pool : MemPool) : Option (ℕ × MemPool) :=
  match Bitmap.firstSet pool.map with
  | none => none
  | some (word, bit) =>
    let entry := word.val * 32 + bit.val
    some ((pool.start + entry * pool.size) % 2 ^ 64,
      { pool with map := Bitmap.clear pool.map word bit })

/-- One unit of fuel for each pool entered; `none` when it runs out. -/
def allocate (k : Kernel) : ℕ → World → ℕ → ℕ → Option (Outcome ℕ)
  | 0, _, _, _ => none
  | fuel + 1, w, self, objectSize =>
    match w.pools self with
    | none => some (.error .segfault, w)
    | some pool =>
      match if pool.size = 0 then initializePool k w self pool objectSize else (.ok (), w) with
      | (.error e, w) => some (.error e, w)
      | (.ok (), w) =>
        match w.pools self with
        | none => some (.error .segfault, w)
        | some pool =>
          if objectSize ≠ pool.size then allocate k fuel w pool.next objectSize
          else match pool.take with
            | some (address, pool) => some (.ok address, w.setPool self pool)
            | none => allocate k fuel w pool.next objectSize

/-- `uint32_t length = count * size`. -/
def MemPool.length (pool : MemPool) : ℕ := count * pool.size % 2 ^ 32

/-- `(start + length) - 1`, which wraps for the pool that was never initialised. -/
def MemPool.last (pool : MemPool) : ℕ := (pool.start + pool.length + (2 ^ 64 - 1)) % 2 ^ 64

/-- The range test of `free`. -/
def MemPool.Misses (pool : MemPool) (object : ℕ) : Prop :=
  object < pool.start ∨ pool.last < object

instance (pool : MemPool) (object : ℕ) : Decidable (pool.Misses object) := by
  unfold MemPool.Misses
  infer_instance

/-- What `free` does in the pool whose range holds the object. The source indexes `map` without
a test; an index past its end counts as a fault. -/
def MemPool.release (pool : MemPool) (object : ℕ) : Except Exit MemPool :=
  let offset := (object - pool.start) % 2 ^ 32
  if pool.size = 0 then .error .divideError
  else
    let entry := offset / pool.size
    let bit := entry % 32
    if inside : entry / 32 < maps then
      let word : Fin maps := ⟨entry / 32, inside⟩
      if pool.map word &&& (1#32 <<< bit) ≠ 0#32 then .error .doubleFree
      else .ok { pool with map := Bitmap.set pool.map word bit }
    else .error .segfault

def free : ℕ → World → ℕ → ℕ → Option (Outcome Unit)
  | 0, _, _, _ => none
  | fuel + 1, w, self, object =>
    match w.pools self with
    | none => some (.error .segfault, w)
    | some pool =>
      if pool.Misses object then
        if pool.next = 0 then some (.error .invalidObject, w) else free fuel w pool.next object
      else match pool.release object with
        | .error e => some (.error e, w)
        | .ok pool => some (.ok (), w.setPool self pool)

/-- The mutex is held around the call and stays held when the call throws. -/
def locked {α : Type} (w : World) (call : World → Option (Outcome α)) : Option (Outcome α) :=
  if w.locked then some (.error .deadlock, w)
  else match call { w with locked := true } with
    | none => none
    | some (.error e, w) => some (.error e, w)
    | some (.ok a, w) => some (.ok a, { w with locked := false })

theorem locked_ok {α : Type} {w w' : World} {call : World → Option (Outcome α)} {r : α}
    (h : locked w call = some (.ok r, w')) :
    w.locked = false ∧ ∃ v, call { w with locked := true } = some (.ok r, v) ∧
      w' = { v with locked := false } := by
  unfold locked at h
  split at h
  · cases h
  · rename_i hl
    split at h
    · cases h
    · cases h
    · rename_i c v hv
      obtain ⟨hr, rfl⟩ := Prod.mk.inj (Option.some.inj h)
      obtain rfl : c = r := Except.ok.inj hr
      exact ⟨by simpa using hl, v, hv, rfl⟩

/-- The global `operator new`. -/
def operatorNew (k : Kernel) (heap : ℕ) (fuel : ℕ) (w : World) (size : ℕ) :
    Option (Outcome ℕ) :=
  locked w fun w => allocate k fuel w heap size

/-- The global `operator delete`. -/
def operatorDelete (heap : ℕ) (fuel : ℕ) (w : World) (address : ℕ) :
    Option (Outcome Unit) :=
  locked w fun w => free fuel w heap address

/-- The calls of the two global operators. -/
inductive Call where
  | new (size : ℕ)
  | delete (address : ℕ)

/-- Before the first call: the static pool `heap`, zeroed, and an unlocked mutex. -/
def World.initial (heap : ℕ) : World where
  pools := Function.update (fun _ => none) heap (some .new)
  mapped := [⟨heap, sizeofMemPool⟩]
  locked := false

end Redx.Allocator
