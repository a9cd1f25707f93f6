import Mathlib.Data.Nat.Digits.Lemmas

/-!
# Base-128 numbers

The canonical varint of a number: its base-128 digits, least significant first, each in a byte
whose highest bit says that another one follows.
-/
namespace Redx.Library

/-- Digits as bytes; the highest bit is set in all of them but the last. -/
def varintBytes : List ℕ → List UInt8
  | [] => []
  | [d] => [UInt8.ofNat d]
  | d :: e :: digits => UInt8.ofNat (d + 128) :: varintBytes (e :: digits)

/-- The base-128 digits of a number, at least one. -/
def varintDigits (value : ℕ) : List ℕ := if value = 0 then [0] else Nat.digits 128 value

def encodeVarint (value : ℕ) : List UInt8 := varintBytes (varintDigits value)

@[simp] theorem length_varintBytes (digits : List ℕ) :
    (varintBytes digits).length = digits.length := by
  fun_induction varintBytes digits with
  | case1 => rfl
  | case2 => rfl
  | case3 d e digits ih => rw [List.length_cons, ih]; rfl

theorem ofDigits_varintDigits (value : ℕ) : Nat.ofDigits 128 (varintDigits value) = value := by
  unfold varintDigits
  split
  · simp_all
  · exact Nat.ofDigits_digits 128 value

theorem varintDigits_lt {value d : ℕ} (h : d ∈ varintDigits value) : d < 128 := by
  unfold varintDigits at h
  split at h
  · simp_all
  · exact Nat.digits_lt_base (by decide) h

theorem varintDigits_ne_nil (value : ℕ) : varintDigits value ≠ [] := by
  unfold varintDigits
  split
  · exact List.cons_ne_nil _ _
  · rename_i h
    exact Nat.digits_ne_nil_iff_ne_zero.mpr h

theorem encodeVarint_length_pos (value : ℕ) : 0 < (encodeVarint value).length := by
  rw [encodeVarint, length_varintBytes]
  exact List.length_pos_iff.mpr (varintDigits_ne_nil value)

theorem encodeVarint_length_le {value width : ℕ} (hwidth : 0 < width)
    (h : value < 128 ^ width) : (encodeVarint value).length ≤ width := by
  rw [encodeVarint, length_varintBytes, varintDigits]
  split
  · exact hwidth
  · exact (Nat.digits_length_le_iff (by decide) value).mpr h

end Redx.Library
