import Redx.Library.Varint
import Redx.Protobuf.Walk

/-!
# Varints, as the parser reads them

`read_varint` gives back what was encoded, and the cursor is left behind it.
-/
namespace Redx.Protobuf
open Library

variable {memory : Memory} {state : Buffer}

theorem digit_byte {d : ℕ} (h : d < 128) :
    (UInt8.ofNat d).toUInt64 &&& 0x7F = UInt64.ofNat d ∧ UInt8.ofNat d &&& 0x80 = 0 := by
  have := (by decide +kernel : ∀ i : Fin 128,
    (UInt8.ofNat i.val).toUInt64 &&& 0x7F = UInt64.ofNat i.val ∧ UInt8.ofNat i.val &&& 0x80 = 0)
  exact this ⟨d, h⟩

theorem digit_byte_continued {d : ℕ} (h : d < 128) :
    (UInt8.ofNat (d + 128)).toUInt64 &&& 0x7F = UInt64.ofNat d ∧
      UInt8.ofNat (d + 128) &&& 0x80 ≠ 0 := by
  have := (by decide +kernel : ∀ i : Fin 128,
    (UInt8.ofNat (i.val + 128)).toUInt64 &&& 0x7F = UInt64.ofNat i.val ∧
      UInt8.ofNat (i.val + 128) &&& 0x80 ≠ 0)
  exact this ⟨d, h⟩

/-- A digit shifted to above the value so far is added to it. -/
theorem or_shiftLeft_digit {value : UInt64} {d shift : ℕ} (hv : value.toNat < 2 ^ shift)
    (hfit : value.toNat + 2 ^ shift * d < 2 ^ 64) :
    value ||| (UInt64.ofNat d <<< UInt64.ofNat shift) =
      UInt64.ofNat (value.toNat + 2 ^ shift * d) := by
  apply UInt64.toNat_inj.mp
  by_cases hd : d = 0
  · subst hd
    simp
  · have hpow : 2 ^ shift * 1 ≤ 2 ^ shift * d := Nat.mul_le_mul_left _ (by omega)
    have hshift : shift < 64 := (Nat.pow_lt_pow_iff_right (by decide : 1 < 2)).mp (by omega)
    have hd64 : d < 2 ^ 64 := by
      have := Nat.le_mul_of_pos_left d (Nat.two_pow_pos shift)
      omega
    rw [UInt64.toNat_or, UInt64.toNat_shiftLeft, UInt64.toNat_ofNat_of_lt' hd64,
      UInt64.toNat_ofNat_of_lt' (by omega : shift < 2 ^ 64), UInt64.toNat_ofNat_of_lt' hfit,
      Nat.mod_eq_of_lt hshift, Nat.shiftLeft_eq, Nat.mul_comm d, Nat.mod_eq_of_lt (by omega),
      Nat.or_comm, ← Nat.two_pow_add_eq_or_of_lt hv, Nat.add_comm]

/-- The loop adds up the digits that it reads. -/
theorem varintLoop_varintBytes {digits : List ℕ} (hne : digits ≠ [])
    (hd : ∀ d ∈ digits, d < 128) (rest : List (Option UInt8)) {shift : ℕ} {value : UInt64}
    (hv : value.toNat < 2 ^ shift)
    (hfit : value.toNat + 2 ^ shift * Nat.ofDigits 128 digits < 2 ^ 64) :
    varintLoop ((varintBytes digits).map some ++ rest) shift value = (digits.length,
      some (UInt64.ofNat (value.toNat + 2 ^ shift * Nat.ofDigits 128 digits))) := by
  fun_induction varintBytes digits generalizing shift value with
  | case1 => exact absurd rfl hne
  | case2 d =>
    obtain ⟨hbyte, hlast⟩ := digit_byte (hd d (by simp))
    rw [Nat.ofDigits_singleton] at hfit ⊢
    rw [List.map_cons, List.cons_append, varintLoop, if_pos hlast, hbyte,
      or_shiftLeft_digit hv hfit, List.length_singleton]
  | case3 d e digits ih =>
    have hdlt := hd d (by simp)
    obtain ⟨hbyte, hnext⟩ := digit_byte_continued hdlt
    have hpow : 2 ^ (shift + 7) = 2 ^ shift * 128 := pow_add 2 shift 7
    have hsum : value.toNat + 2 ^ shift * Nat.ofDigits 128 (d :: e :: digits) =
        value.toNat + 2 ^ shift * d + 2 ^ (shift + 7) * Nat.ofDigits 128 (e :: digits) := by
      rw [Nat.ofDigits_cons, hpow]
      ring
    have hstep : 2 ^ shift * d + 2 ^ shift ≤ 2 ^ shift * 128 := by
      rw [← Nat.mul_succ]
      exact Nat.mul_le_mul_left _ hdlt
    have hfit' : value.toNat + 2 ^ shift * d < 2 ^ 64 := by omega
    have hto : (UInt64.ofNat (value.toNat + 2 ^ shift * d)).toNat = value.toNat + 2 ^ shift * d :=
      UInt64.toNat_ofNat_of_lt' hfit'
    rw [List.map_cons, List.cons_append, varintLoop, if_neg hnext, hbyte,
      or_shiftLeft_digit hv hfit']
    rw [ih (List.cons_ne_nil _ _) (fun x hx => hd x (List.mem_cons_of_mem _ hx))
      (by rw [hto, hpow]; omega) (by rw [hto, ← hsum]; exact hfit), hto, ← hsum]
    rfl

theorem varintLoop_encodeVarint {value : ℕ} (hvalue : value < 2 ^ 64) (rest : List (Option UInt8)) :
    varintLoop ((encodeVarint value).map some ++ rest) 0 0 =
      ((encodeVarint value).length, some (UInt64.ofNat value)) := by
  have hfit : (0 : UInt64).toNat + 2 ^ 0 * Nat.ofDigits 128 (varintDigits value) < 2 ^ 64 := by
    simpa [ofDigits_varintDigits] using hvalue
  have hloop := varintLoop_varintBytes (varintDigits_ne_nil value) (fun d => varintDigits_lt) rest
    (by decide) hfit
  simp only [ofDigits_varintDigits, UInt64.toNat_zero, pow_zero, one_mul, zero_add] at hloop
  rw [encodeVarint, hloop, length_varintBytes]

/-- `read_varint` on the canonical encoding of a 64-bit value. -/
theorem readVarint_encodeVarint {value : ℕ} (hvalue : value < 2 ^ 64)
    {rest : List (Option UInt8)}
    (h : memory.cells state.dot = (encodeVarint value).map some ++ rest) :
    (readVarint memory state).result =
      some (UInt64.ofNat value, increment state (encodeVarint value).length) := by
  rw [readVarint, h, varintLoop_encodeVarint hvalue]
  rfl

theorem readVarint_span {value : ℕ} (hvalue : value < 2 ^ 64) {rest : List (Option UInt8)}
    (h : memory.cells state.dot = (encodeVarint value).map some ++ rest) :
    (readVarint memory state).span = ⟨state.dot, (encodeVarint value).length⟩ := by
  rw [readVarint, h, varintLoop_encodeVarint hvalue]

/-- Every 64-bit value is read back from its encoding, whatever follows: one to ten bytes are
read, and the buffer goes on by exactly these. -/
theorem readVarint_roundTrip (value : UInt64) (rest : List (Option UInt8))
    (h : memory.cells state.dot = (encodeVarint value.toNat).map some ++ rest) :
    let length := (encodeVarint value.toNat).length
    1 ≤ length ∧ length ≤ 10 ∧ (readVarint memory state).span = ⟨state.dot, length⟩ ∧
      ∃ after, (readVarint memory state).result = some (value, after) ∧
        after.dot = state.dot + length ∧
        after.remaining = narrow (state.remaining - length) ∧
        (IsInt (state.remaining - length) → after.remaining = state.remaining - length) := by
  intro length
  have hvalue : value.toNat < 2 ^ 64 := value.toNat_lt
  have hwidth : value.toNat < 128 ^ 10 := hvalue.trans (by decide)
  refine ⟨encodeVarint_length_pos _, encodeVarint_length_le (by decide) hwidth,
    readVarint_span hvalue h, increment state length, ?_, rfl, rfl, ?_⟩
  · rw [readVarint_encodeVarint hvalue h, UInt64.ofNat_toNat]
  · intro hint
    exact narrow_eq_self hint.1 hint.2

/-- The largest value takes ten bytes. -/
theorem readVarint_roundTrip_max :
    ((readVarint (List.replicate 9 (some 0xFF) ++ [some 1, some 7]) ⟨0, 11⟩).result.map (·.1) =
      some 18446744073709551615) ∧
      (encodeVarint 18446744073709551615).length ≤ 10 := by
  have h : Memory.cells (List.replicate 9 (some 0xFF) ++ [some 1, some 7]) (⟨0, 11⟩ : Buffer).dot =
      (encodeVarint (18446744073709551615 : UInt64).toNat).map some ++ [some 7] := by
    decide +kernel
  obtain ⟨-, hten, -, after, hresult, -⟩ :=
    readVarint_roundTrip 18446744073709551615 [some 7] h
  exact ⟨by rw [hresult]; rfl, hten⟩

end Redx.Protobuf
