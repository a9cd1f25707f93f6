import Mathlib.Data.List.Basic

/-!
# Strings in a memory that is mapped in part

Reading an address that is not mapped has no result. A string is its bytes with a NUL behind.
-/
namespace Redx.Library

/-- A memory in which addresses below a limit may be mapped. -/
structure Memory where
  read : ℕ → Option UInt8
  limit : ℕ
  unmapped : ∀ a, limit ≤ a → read a = none

namespace Memory

/-- From the address on, the memory is mapped and holds these bytes. -/
def Holds (memory : Memory) : ℕ → List UInt8 → Prop
  | _, [] => True
  | a, b :: bytes => memory.read a = some b ∧ memory.Holds (a + 1) bytes

def StringAt (memory : Memory) (a : ℕ) (string : List UInt8) : Prop :=
  0 ∉ string ∧ memory.Holds a (string ++ [0])

/-- The address of the first NUL, in a number of steps. -/
def scan (memory : Memory) : ℕ → ℕ → Option ℕ
  | 0, _ => none
  | steps + 1, a =>
    match memory.read a with
    | none => none
    | some b => if b = 0 then some a else memory.scan steps (a + 1)

/-- The address of the first NUL. All mapped addresses are within reach. -/
def nul (memory : Memory) (a : ℕ) : Option ℕ := memory.scan memory.limit a

/-- The string at an address, if it ends. -/
def string (memory : Memory) (a : ℕ) : Option (List UInt8) :=
  (memory.nul a).map fun p => (List.range (p - a)).map fun i => (memory.read (a + i)).getD 0

/-- The memory after these bytes have been mapped and written from the address on. -/
def write (memory : Memory) (a : ℕ) (bytes : List UInt8) : Memory where
  read p := if a ≤ p ∧ p < a + bytes.length then bytes[p - a]? else memory.read p
  limit := max memory.limit (a + bytes.length)
  unmapped p hp := by
    rw [if_neg (by omega)]
    exact memory.unmapped p (by omega)

/-- A memory with nothing in it. -/
def empty : Memory := ⟨fun _ => none, 0, fun _ _ => rfl⟩

variable {memory : Memory} {a p : ℕ} {b : UInt8} {bytes bytes' string : List UInt8}

theorem lt_limit (h : memory.read a = some b) : a < memory.limit := by
  by_contra hle
  rw [memory.unmapped a (Nat.le_of_not_lt hle)] at h
  cases h

theorem holds_append : memory.Holds a (bytes ++ bytes') ↔
    memory.Holds a bytes ∧ memory.Holds (a + bytes.length) bytes' := by
  induction bytes generalizing a with
  | nil => simp [Holds]
  | cons b bytes ih =>
    rw [List.cons_append, Holds, Holds, ih, List.length_cons, and_assoc]
    rw [show a + 1 + bytes.length = a + (bytes.length + 1) by omega]

theorem Holds.read (h : memory.Holds a bytes) {i : ℕ} (hi : i < bytes.length) :
    memory.read (a + i) = some bytes[i] := by
  induction bytes generalizing a i with
  | nil => exact absurd hi (Nat.not_lt_zero i)
  | cons b bytes ih =>
    cases i with
    | zero => exact h.1
    | succ i =>
      have := ih h.2 (Nat.lt_of_succ_lt_succ hi)
      rwa [Nat.add_assoc, Nat.add_comm 1 i] at this

theorem holds_of_read (h : ∀ i (hi : i < bytes.length), memory.read (a + i) = some bytes[i]) :
    memory.Holds a bytes := by
  induction bytes generalizing a with
  | nil => trivial
  | cons b bytes ih =>
    refine ⟨h 0 (Nat.succ_pos _), ih fun i hi => ?_⟩
    rw [Nat.add_assoc, Nat.add_comm 1 i]
    exact h (i + 1) (Nat.succ_lt_succ hi)

theorem holds_write (memory : Memory) (a : ℕ) (bytes : List UInt8) :
    (memory.write a bytes).Holds a bytes := by
  refine holds_of_read fun i hi => ?_
  have hin : a ≤ a + i ∧ a + i < a + bytes.length := by omega
  simp only [write, if_pos hin, Nat.add_sub_cancel_left]
  exact List.getElem?_eq_getElem hi

/-- What the memory holds lies below the limit. -/
theorem Holds.le_limit (h : memory.Holds a bytes) (hne : bytes ≠ []) :
    a + bytes.length ≤ memory.limit := by
  have hpos := List.length_pos_of_ne_nil hne
  have := lt_limit (h.read (i := bytes.length - 1) (by omega))
  omega

theorem scan_of_stringAt (h : memory.StringAt a string) {steps : ℕ}
    (hsteps : string.length < steps) :
    memory.scan steps a = some (a + string.length) := by
  induction string generalizing a steps with
  | nil =>
    obtain ⟨steps, rfl⟩ := Nat.exists_eq_succ_of_ne_zero (Nat.ne_zero_of_lt hsteps)
    rw [scan, h.2.1]
    rfl
  | cons b string ih =>
    obtain ⟨steps, rfl⟩ := Nat.exists_eq_succ_of_ne_zero (Nat.ne_zero_of_lt hsteps)
    obtain ⟨hnul, hread, hrest⟩ := h
    rw [List.mem_cons, not_or] at hnul
    rw [scan, hread]
    dsimp only
    rw [if_neg (Ne.symm hnul.1), ih ⟨hnul.2, hrest⟩ (Nat.lt_of_succ_lt_succ hsteps),
      List.length_cons]
    congr 1
    omega

theorem stringAt_of_scan {steps : ℕ} (h : memory.scan steps a = some p) :
    ∃ string, memory.StringAt a string ∧ p = a + string.length := by
  induction steps generalizing a with
  | zero => cases h
  | succ steps ih =>
    rw [scan] at h
    split at h
    · cases h
    · rename_i b hread
      split_ifs at h with hb
      · exact ⟨[], ⟨List.not_mem_nil, hb ▸ hread, trivial⟩, (Option.some.inj h).symm⟩
      · obtain ⟨string, ⟨hnul, hrest⟩, rfl⟩ := ih h
        refine ⟨b :: string, ⟨?_, hread, hrest⟩, ?_⟩
        · rw [List.mem_cons, not_or]
          exact ⟨Ne.symm hb, hnul⟩
        · rw [List.length_cons]
          omega

/-- The scan ends exactly behind the strings of the memory. -/
theorem nul_eq_some : memory.nul a = some p ↔
    ∃ string, memory.StringAt a string ∧ p = a + string.length := by
  constructor
  · exact stringAt_of_scan
  · rintro ⟨string, h, rfl⟩
    refine scan_of_stringAt h ?_
    have := h.2.le_limit (List.append_ne_nil_of_right_ne_nil _ (List.cons_ne_nil _ _))
    rw [List.length_append, List.length_singleton] at this
    omega

theorem string_of_stringAt (h : memory.StringAt a string) : memory.string a = some string := by
  have hnul := nul_eq_some.mpr ⟨string, h, rfl⟩
  rw [Memory.string, hnul, Option.map_some, Nat.add_sub_cancel_left]
  congr 1
  refine List.ext_getElem (by simp) fun i hi hi' => ?_
  have hread := h.2.read (i := i) (by rw [List.length_append]; omega)
  rw [List.getElem_map, List.getElem_range, hread, Option.getD_some, List.getElem_append_left hi']

end Memory
end Redx.Library
