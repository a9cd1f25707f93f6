import Mathlib.Data.List.Basic
import Mathlib.Tactic.Ring

/-!
# Bytes in a memory

Little-endian numbers as lists of bytes, and lists of bytes at an address of a memory.
-/
namespace Redx.Library

/-- The lowest `width` bytes of a number, least significant first. -/
def bytesOf : ℕ → ℕ → List UInt8
  | 0, _ => []
  | width + 1, value => UInt8.ofNat value :: bytesOf width (value / 256)

/-- The number that `width` bytes from an address on stand for. -/
def valueAt (memory : ℕ → UInt8) (address : ℕ) : ℕ → ℕ
  | 0 => 0
  | width + 1 => (memory address).toNat + 256 * valueAt memory (address + 1) width

/-- The number that a list of bytes stands for, least significant first. -/
def ofBytes : List UInt8 → ℕ
  | [] => 0
  | b :: bytes => b.toNat + 256 * ofBytes bytes

/-- From the address on, the memory holds these bytes. -/
def Holds (memory : ℕ → UInt8) : ℕ → List UInt8 → Prop
  | _, [] => True
  | address, b :: bytes => memory address = b ∧ Holds memory (address + 1) bytes

instance decidableHolds (memory : ℕ → UInt8) :
    (address : ℕ) → (bytes : List UInt8) → Decidable (Holds memory address bytes)
  | _, [] => .isTrue trivial
  | address, b :: bytes =>
    have := decidableHolds memory (address + 1) bytes
    inferInstanceAs (Decidable (memory address = b ∧ Holds memory (address + 1) bytes))

variable {memory : ℕ → UInt8} {address : ℕ}

@[simp] theorem length_bytesOf (width value : ℕ) : (bytesOf width value).length = width := by
  induction width generalizing value with
  | zero => rfl
  | succ width ih => rw [bytesOf, List.length_cons, ih]

theorem ofBytes_bytesOf (width value : ℕ) :
    ofBytes (bytesOf width value) = value % 256 ^ width := by
  induction width generalizing value with
  | zero => simp [bytesOf, ofBytes, Nat.mod_one]
  | succ width ih =>
    have hbyte : (UInt8.ofNat value).toNat = value % 256 := by simp
    rw [bytesOf, ofBytes, hbyte, ih, pow_succ, Nat.mul_comm (256 ^ width), Nat.mod_mul]

theorem holds_append {as bs : List UInt8} :
    Holds memory address (as ++ bs) ↔
      Holds memory address as ∧ Holds memory (address + as.length) bs := by
  induction as generalizing address with
  | nil => simp [Holds]
  | cons a as ih =>
    rw [List.cons_append, Holds, Holds, ih, List.length_cons, and_assoc]
    rw [show address + 1 + as.length = address + (as.length + 1) by omega]

theorem Holds.get {bytes : List UInt8} (h : Holds memory address bytes) {i : ℕ}
    (hi : i < bytes.length) : memory (address + i) = bytes[i] := by
  induction bytes generalizing address i with
  | nil => exact absurd hi (Nat.not_lt_zero i)
  | cons b bytes ih =>
    cases i with
    | zero => exact h.1
    | succ i =>
      have hread := ih h.2 (Nat.lt_of_succ_lt_succ hi)
      rwa [Nat.add_assoc, Nat.add_comm 1 i] at hread

/-- A list of bytes, read as a memory, holds itself. -/
theorem holds_getD (bytes : List UInt8) : Holds (fun i => bytes.getD i 0) 0 bytes := by
  have h : ∀ before : List UInt8,
      Holds (fun i => (before ++ bytes).getD i 0) before.length bytes := by
    induction bytes with
    | nil => exact fun _ => trivial
    | cons b bytes ih =>
      intro before
      refine ⟨by simp, ?_⟩
      have := ih (before ++ [b])
      rwa [List.append_assoc, List.length_append] at this
  exact h []

/-- What was written as bytes is read back, as far as the bytes hold it. -/
theorem valueAt_of_holds {width value : ℕ} (h : Holds memory address (bytesOf width value)) :
    valueAt memory address width = value % 256 ^ width := by
  induction width generalizing address value with
  | zero => simp [valueAt, Nat.mod_one]
  | succ width ih =>
    obtain ⟨hb, hrest⟩ := h
    have hbyte : (UInt8.ofNat value).toNat = value % 256 := by simp
    rw [valueAt, hb, ih hrest, hbyte, pow_succ, Nat.mul_comm (256 ^ width), Nat.mod_mul]

/-- A number determines the bytes that it was read from. -/
theorem valueAt_inj {memory' : ℕ → UInt8} {address' width : ℕ} :
    valueAt memory address width = valueAt memory' address' width ↔
      ∀ i < width, memory (address + i) = memory' (address' + i) := by
  induction width generalizing address address' with
  | zero => simp [valueAt]
  | succ width ih =>
    have hlt := (memory address).toNat_lt
    have hlt' := (memory' address').toNat_lt
    have hsplit : valueAt memory address (width + 1) = valueAt memory' address' (width + 1) ↔
        memory address = memory' address' ∧
          valueAt memory (address + 1) width = valueAt memory' (address' + 1) width := by
      rw [valueAt, valueAt, ← UInt8.toNat_inj]
      omega
    rw [hsplit, ih]
    constructor
    · rintro ⟨hzero, hsucc⟩ i hi
      cases i with
      | zero => exact hzero
      | succ i =>
        have := hsucc i (by omega)
        rwa [Nat.add_assoc, Nat.add_comm 1, Nat.add_assoc, Nat.add_comm 1] at this
    · intro h
      refine ⟨h 0 (Nat.succ_pos _), fun i hi => ?_⟩
      have := h (i + 1) (by omega)
      rwa [Nat.add_assoc, Nat.add_comm 1, Nat.add_assoc, Nat.add_comm 1]

end Redx.Library
