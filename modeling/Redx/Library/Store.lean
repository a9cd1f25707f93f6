import Redx.Library.Bytes
import Mathlib.Data.List.GetD

/-!
# Copies of bytes into and out of a memory

A copy changes the addresses that it covers and no others, so what a memory holds after several
copies follows address by address.
-/
namespace Redx.Library

/-- The bytes from an address on. -/
def load (memory : ℕ → UInt8) : ℕ → ℕ → List UInt8
  | _, 0 => []
  | address, width + 1 => memory address :: load memory (address + 1) width

/-- The memory once the bytes are copied to an address. -/
def store (memory : ℕ → UInt8) (address : ℕ) (bytes : List UInt8) : ℕ → UInt8 := fun a =>
  if address ≤ a then bytes.getD (a - address) (memory a) else memory a

variable {memory memory' : ℕ → UInt8} {address address' a width : ℕ} {bytes : List UInt8}

@[simp] theorem length_load : (load memory address width).length = width := by
  induction width generalizing address with
  | zero => rfl
  | succ width ih => rw [load, List.length_cons, ih]

@[simp] theorem getElem_load {i : ℕ} (hi : i < (load memory address width).length) :
    (load memory address width)[i] = memory (address + i) := by
  induction width generalizing address i with
  | zero => simp at hi
  | succ width ih =>
    cases i with
    | zero => rfl
    | succ i =>
      simp only [load, List.getElem_cons_succ, ih]
      rw [Nat.add_assoc, Nat.add_comm 1]

/-- Two memories give the same bytes exactly when they agree at each of the addresses. -/
theorem load_eq_load : load memory address width = load memory' address' width ↔
    ∀ i < width, memory (address + i) = memory' (address' + i) := by
  constructor
  · intro h i hi
    have hget : (load memory address width)[i]? = (load memory' address' width)[i]? := by rw [h]
    rwa [List.getElem?_eq_getElem (by simpa using hi), List.getElem?_eq_getElem (by simpa using hi),
      getElem_load, getElem_load, Option.some.injEq] at hget
  · intro h
    refine List.ext_getElem (by simp) fun i hi _ => ?_
    rw [getElem_load, getElem_load]
    exact h i (by simpa using hi)

theorem load_eq_iff_holds :
    load memory address bytes.length = bytes ↔ Holds memory address bytes := by
  induction bytes generalizing address with
  | nil => simp [load, Holds]
  | cons b bytes ih => rw [List.length_cons, load, Holds, List.cons.injEq, ih]

/-- A memory with the same bytes holds the same. -/
theorem Holds.congr (h : Holds memory address bytes)
    (hsame : ∀ i < bytes.length, memory' (address' + i) = memory (address + i)) :
    Holds memory' address' bytes := by
  rw [← load_eq_iff_holds] at h ⊢
  rw [← h]
  simpa using load_eq_load.mpr hsame

theorem store_inside {i : ℕ} (hi : i < bytes.length) :
    store memory address bytes (address + i) = bytes[i] := by
  rw [store, if_pos (Nat.le_add_right ..), Nat.add_sub_cancel_left,
    List.getD_eq_getElem _ _ hi]

@[simp] theorem store_byte {b : UInt8} : store memory address [b] address = b := by simp [store]

theorem store_outside (h : a < address ∨ address + bytes.length ≤ a) :
    store memory address bytes a = memory a := by
  rw [store]
  split
  · exact List.getD_eq_default _ _ (by omega)
  · rfl

/-- Storing changes nothing that the copy does not cover. -/
theorem load_store_of_apart (h : address' + width ≤ address ∨ address + bytes.length ≤ address') :
    load (store memory address bytes) address' width = load memory address' width := by
  rw [load_eq_load]
  exact fun i hi => store_outside (by omega)

/-- What was stored is read back, as far as it is read. -/
theorem load_store (h : width ≤ bytes.length) :
    load (store memory address bytes) address width = bytes.take width := by
  refine List.ext_getElem (by simpa using h) fun i hi hi' => ?_
  rw [length_load] at hi
  rw [getElem_load, store_inside (by omega), List.getElem_take]

theorem holds_store : Holds (store memory address bytes) address bytes := by
  rw [← load_eq_iff_holds, load_store le_rfl, List.take_length]

theorem holds_store_of_apart {bytes' : List UInt8}
    (h : address' + bytes'.length ≤ address ∨ address + bytes.length ≤ address') :
    Holds (store memory address bytes) address' bytes' ↔ Holds memory address' bytes' := by
  rw [← load_eq_iff_holds, load_store_of_apart h, load_eq_iff_holds]

theorem valueAt_store {value : ℕ} :
    valueAt (store memory address (bytesOf width value)) address width = value % 256 ^ width :=
  valueAt_of_holds holds_store

theorem valueAt_store_of_apart
    (h : address' + width ≤ address ∨ address + bytes.length ≤ address') :
    valueAt (store memory address bytes) address' width = valueAt memory address' width := by
  rw [valueAt_inj]
  exact fun i hi => store_outside (by omega)

/-- After the same copy two memories agree where they did before, and where the copy went. -/
theorem store_agrees : store memory address bytes a = store memory' address bytes a ↔
    memory a = memory' a ∨ (address ≤ a ∧ a < address + bytes.length) := by
  by_cases h : address ≤ a ∧ a < address + bytes.length
  · obtain ⟨i, rfl⟩ := Nat.exists_eq_add_of_le h.1
    rw [store_inside (by omega), store_inside (by omega)]
    exact iff_of_true rfl (.inr h)
  · rw [store_outside (by omega), store_outside (by omega)]
    exact (or_iff_left h).symm

end Redx.Library
