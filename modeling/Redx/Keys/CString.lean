import Redx.Library.Memory
import Mathlib.Data.Int.Basic

/-!
# String keys

The constructor of a `CStringKey` copies the string and drops the copy, so that the key is
whatever pointer the object held before, and `compare` looks at the first characters of the two
keys over and over until they differ.
-/
namespace Redx.Keys.CStringKey
open Library

/-- The `int` that a `char` is promoted to. -/
def promote (signed : Bool) (c : UInt8) : ℤ := if signed then c.toInt8.toInt else c.toNat

/-- `strdup` into the memory that `malloc` returns; no result when the string does not end. -/
def strdup (memory : Memory) (malloc : Option ℕ) (string : ℕ) : Option (Option ℕ × Memory) :=
  match memory.string string with
  | none => none
  | some bytes =>
    match malloc with
    | none => some (none, memory)
    | some copy => some (some copy, memory.write copy (bytes ++ [0]))

/-- The constructor. `key` is what the member held before; NULL is `none`. -/
def construct (memory : Memory) (malloc key : Option ℕ) : Option ℕ → Option (Option ℕ × Memory)
  | none =>
    match malloc with
    | none => some (none, memory)
    | some copy => some (some copy, memory.write copy [0])
  | some string =>
    match strdup memory malloc string with
    | none => none
    | some (_, memory) => some (key, memory)

/-- `CStringKey::compare`, in a number of turns of its loop. -/
def compare (signed : Bool) (memory : Memory) (s t : Option ℕ) : ℕ → Option ℤ
  | 0 => none
  | turns + 1 =>
    match s.bind memory.read, t.bind memory.read with
    | some x, some y =>
      if x = 0 then some (0 - promote signed y)
      else
        let result := promote signed x - promote signed y
        if result ≠ 0 then some result else compare signed memory s t turns
    | _, _ => none

/-- The sign of the result tells the bytewise lexicographic order. -/
def Agrees (result : ℤ) (a b : List UInt8) : Prop :=
  (result < 0 ↔ a < b) ∧ (result = 0 ↔ a = b) ∧ (0 < result ↔ b < a)

/-- `CStringKey(a).compare(&CStringKey(b))` comes to an end with the right sign. -/
def Compares (signed : Bool) (memory : Memory) (malloc malloc' key key' : Option ℕ) (p q : ℕ)
    (a b : List UInt8) : Prop :=
  ∃ this that memory₁ memory₂ turns result,
    construct memory malloc key (some p) = some (this, memory₁) ∧
    construct memory₁ malloc' key' (some q) = some (that, memory₂) ∧
    compare signed memory₂ this that turns = some result ∧ Agrees result a b

/-- The memory with the copy that the constructor makes. -/
def copied (memory : Memory) (malloc : Option ℕ) (string : List UInt8) : Memory :=
  match malloc with
  | none => memory
  | some copy => memory.write copy (string ++ [0])

/-- The pointers lead to two bytes, the first of them a NUL or not the second, whose difference
has the sign of the order. -/
def Decides (signed : Bool) (memory : Memory) (s t : Option ℕ) (a b : List UInt8) : Prop :=
  ∃ x y, s.bind memory.read = some x ∧ t.bind memory.read = some y ∧ (x = 0 ∨ x ≠ y) ∧
    Agrees (promote signed x - promote signed y) a b

variable {signed : Bool} {memory : Memory} {s t key malloc : Option ℕ} {x y : UInt8} {p : ℕ}
  {a b : List UInt8} {result : ℤ}

theorem promote_inj : promote signed x = promote signed y ↔ x = y := by
  cases signed with
  | true =>
    rw [promote, promote, if_pos rfl, if_pos rfl, Int8.toInt_inj]
    exact ⟨fun h => by simpa using congrArg Int8.toUInt8 h, fun h => h ▸ rfl⟩
  | false =>
    rw [promote, promote, if_neg nofun, if_neg nofun, Int.natCast_inj, UInt8.toNat_inj]

@[simp] theorem promote_zero : promote signed 0 = 0 := by cases signed <;> rfl

/-- The constructor leaves the pointer as it was. -/
theorem construct_of_stringAt (h : memory.StringAt p a) :
    construct memory malloc key (some p) = some (key, copied memory malloc a) := by
  rw [construct, strdup, Memory.string_of_stringAt h]
  cases malloc <;> rfl

/-- The loop ends in its first turn when the first characters differ or the first is a NUL. -/
theorem compare_of_differ (hx : s.bind memory.read = some x) (hy : t.bind memory.read = some y)
    (hdiffer : x = 0 ∨ x ≠ y) (turns : ℕ) : compare signed memory s t (turns + 1) =
      some (promote signed x - promote signed y) := by
  simp only [compare, hx, hy]
  by_cases hx0 : x = 0
  · rw [if_pos hx0, hx0, promote_zero]
  · have hne : promote signed x ≠ promote signed y :=
      promote_inj.not.mpr (hdiffer.resolve_left hx0)
    rw [if_neg hx0, if_pos (by omega)]

/-- Nothing changes from one turn to the next while the characters are the same. -/
theorem compare_of_same (hx : s.bind memory.read = some x) (hy : t.bind memory.read = some x)
    (hne : x ≠ 0) (turns : ℕ) : compare signed memory s t turns = none := by
  induction turns with
  | zero => rfl
  | succ turns ih =>
    simp only [compare, hx, hy]
    rw [if_neg hne, if_neg (by simp), ih]

theorem exists_compare_iff : (∃ turns, compare signed memory s t turns = some result) ↔
    ∃ x y, s.bind memory.read = some x ∧ t.bind memory.read = some y ∧ (x = 0 ∨ x ≠ y) ∧
      promote signed x - promote signed y = result := by
  constructor
  · rintro ⟨turns, h⟩
    cases turns with
    | zero => cases h
    | succ turns =>
      cases hx : s.bind memory.read with
      | none => simp [compare, hx] at h
      | some x =>
        cases hy : t.bind memory.read with
        | none => simp [compare, hy] at h
        | some y =>
          by_cases hdiffer : x = 0 ∨ x ≠ y
          · rw [compare_of_differ hx hy hdiffer] at h
            exact ⟨x, y, rfl, rfl, hdiffer, Option.some.inj h⟩
          · obtain ⟨hx0, rfl⟩ : x ≠ 0 ∧ x = y := by simpa using hdiffer
            rw [compare_of_same hx hy hx0] at h
            cases h
  · rintro ⟨x, y, hx, hy, hdiffer, rfl⟩
    exact ⟨1, compare_of_differ hx hy hdiffer 0⟩

variable {malloc' key' : Option ℕ} {q : ℕ}

theorem compares_iff (hp : memory.StringAt p a) (hq : (copied memory malloc a).StringAt q b) :
    Compares signed memory malloc malloc' key key' p q a b ↔
      Decides signed (copied (copied memory malloc a) malloc' b) key key' a b := by
  rw [Compares, construct_of_stringAt hp]
  constructor
  · rintro ⟨this, that, memory₁, memory₂, turns, result, h₁, h₂, hresult, hagrees⟩
    obtain ⟨rfl, rfl⟩ := Prod.mk.inj (Option.some.inj h₁)
    rw [construct_of_stringAt hq] at h₂
    obtain ⟨rfl, rfl⟩ := Prod.mk.inj (Option.some.inj h₂)
    obtain ⟨x, y, hx, hy, hdiffer, rfl⟩ := exists_compare_iff.mp ⟨turns, hresult⟩
    exact ⟨x, y, hx, hy, hdiffer, hagrees⟩
  · rintro ⟨x, y, hx, hy, hdiffer, hagrees⟩
    obtain ⟨turns, hresult⟩ := exists_compare_iff.mpr ⟨x, y, hx, hy, hdiffer, rfl⟩
    exact ⟨_, _, _, _, turns, _, rfl, construct_of_stringAt hq, hresult, hagrees⟩

/-- The strings have no part in the comparison: it succeeds exactly when the pointers that the
objects held before happen to decide it, and for no strings whatever these pointers are. -/
theorem cstring_compare_iff (signed : Bool) {memory : Memory} {p q : ℕ} {a b : List UInt8}
    (malloc malloc' : Option ℕ) (hp : memory.StringAt p a)
    (hq : (copied memory malloc a).StringAt q b) :
    (∀ key key', Compares signed memory malloc malloc' key key' p q a b ↔
      Decides signed (copied (copied memory malloc a) malloc' b) key key' a b) ∧
    ¬ ∀ key key', Compares signed memory malloc malloc' key key' p q a b := by
  refine ⟨fun key key' => compares_iff hp hq, fun hall => ?_⟩
  obtain ⟨x, y, hx, -⟩ := (compares_iff hp hq).mp (hall none none)
  cases hx

/-- The strings `ab` and `ac` at the addresses 1 and 4. -/
def twoStrings : Memory := (Memory.empty.write 1 [97, 98, 0]).write 4 [97, 99, 0]

theorem twoStrings_first : twoStrings.StringAt 1 [97, 98] := by
  refine ⟨by decide, ?_⟩
  simp [Memory.Holds, twoStrings, Memory.write]

theorem twoStrings_second : twoStrings.StringAt 4 [97, 99] :=
  ⟨by decide, Memory.holds_write _ 4 _⟩

theorem copied_twoStrings : (copied twoStrings (some 8) [97, 98]).StringAt 4 [97, 99] := by
  refine ⟨by decide, ?_⟩
  simp [Memory.Holds, copied, twoStrings, Memory.write]

/-- Pointers that were left at the second characters decide it, NULL pointers do not. -/
theorem cstring_compare_iff_two :
    Compares true twoStrings (some 8) (some 16) (some 2) (some 5) 1 4 [97, 98] [97, 99] ∧
      ¬ Compares true twoStrings (some 8) (some 16) none (some 5) 1 4 [97, 98] [97, 99] := by
  have hiff := (cstring_compare_iff true (some 8) (some 16) twoStrings_first copied_twoStrings).1
  refine ⟨(hiff _ _).mpr ⟨98, 99, ?_, ?_, by decide, ?_⟩, fun h => ?_⟩
  · simp [copied, twoStrings, Memory.write]
  · simp [copied, twoStrings, Memory.write]
  · unfold Agrees
    decide
  · obtain ⟨x, y, hx, -⟩ := (hiff _ _).mp h
    cases hx

/-- Even if the pointers happen to be those of the copies, the loop does not get beyond a first
character that the strings share. -/
theorem cstring_compare_loops : twoStrings.StringAt 1 [97, 98] ∧ twoStrings.StringAt 4 [97, 99] ∧
    ∀ signed, ¬ Compares signed twoStrings (some 8) (some 16) (some 8) (some 16) 1 4
      [97, 98] [97, 99] := by
  refine ⟨twoStrings_first, twoStrings_second, fun signed h => ?_⟩
  obtain ⟨x, y, hx, hy, hdiffer, -⟩ := (compares_iff twoStrings_first copied_twoStrings).mp h
  obtain rfl : 97 = x := by simpa [copied, twoStrings, Memory.write] using hx
  obtain rfl : 97 = y := by simpa [copied, twoStrings, Memory.write] using hy
  exact absurd hdiffer (by decide)

end Redx.Keys.CStringKey
