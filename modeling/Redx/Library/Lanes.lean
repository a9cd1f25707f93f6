import Mathlib.Algebra.GroupWithZero.Nat
import Mathlib.Data.List.Basic

/-!
# Counting the set bits of a word in parallel

A 32-bit word as four bytes, on all of which one machine operation works at once. The sums of
neighbouring bits, then of pairs and of nibbles, never leave their byte.
-/
namespace Redx.Library

/-- Four bytes as one number, the lowest first. -/
def lanes (a b c d : ℕ) : ℕ := a + 2 ^ 8 * (b + 2 ^ 8 * (c + 2 ^ 8 * d))

/-- The number of bits set below a position. -/
def bitCount (width n : ℕ) : ℕ := (List.range width).countP n.testBit

theorem lane_and {a a' : ℕ} (ha : a < 2 ^ 8) (ha' : a' < 2 ^ 8) (n n' : ℕ) :
    (a + 2 ^ 8 * n) &&& (a' + 2 ^ 8 * n') = (a &&& a') + 2 ^ 8 * (n &&& n') := by
  have hand : a &&& a' < 2 ^ 8 := Nat.and_lt_two_pow a ha'
  rw [Nat.add_comm a, Nat.add_comm a', Nat.add_comm (a &&& a')]
  apply Nat.eq_of_testBit_eq
  intro i
  rw [Nat.testBit_and, Nat.testBit_two_pow_mul_add _ ha, Nat.testBit_two_pow_mul_add _ ha',
    Nat.testBit_two_pow_mul_add _ hand, Nat.testBit_and, Nat.testBit_and]
  split <;> rfl

theorem lanes_and {a b c d a' b' c' d' : ℕ} (ha : a < 2 ^ 8) (hb : b < 2 ^ 8) (hc : c < 2 ^ 8)
    (ha' : a' < 2 ^ 8) (hb' : b' < 2 ^ 8) (hc' : c' < 2 ^ 8) :
    lanes a b c d &&& lanes a' b' c' d' =
      lanes (a &&& a') (b &&& b') (c &&& c') (d &&& d') := by
  unfold lanes
  rw [lane_and ha ha', lane_and hb hb', lane_and hc hc']

/-- The bits of the lowest byte and those of the rest. -/
theorem bitCount_lane {a : ℕ} (ha : a < 2 ^ 8) (width n : ℕ) :
    bitCount (8 + width) (a + 2 ^ 8 * n) = bitCount 8 a + bitCount width n := by
  have hbit (i : ℕ) :
      (a + 2 ^ 8 * n).testBit i = if i < 8 then a.testBit i else n.testBit (i - 8) := by
    rw [Nat.add_comm]
    exact Nat.testBit_two_pow_mul_add n ha i
  unfold bitCount
  rw [List.range_add, List.countP_append, List.countP_map]
  congr 1
  · refine List.countP_congr fun i hi => ?_
    rw [hbit, if_pos (List.mem_range.mp hi)]
  · refine List.countP_congr fun i _ => ?_
    rw [Function.comp_apply, hbit, if_neg (by omega), Nat.add_sub_cancel_left]

theorem bitCount_lanes {a b c d : ℕ} (ha : a < 2 ^ 8) (hb : b < 2 ^ 8) (hc : c < 2 ^ 8) :
    bitCount 32 (lanes a b c d) =
      bitCount 8 a + (bitCount 8 b + (bitCount 8 c + bitCount 8 d)) := by
  rw [lanes, bitCount_lane ha 24, bitCount_lane hb 16, bitCount_lane hc 8]

/-- The sum of each two neighbouring bits of a byte. -/
def pairSums (a : ℕ) : ℕ := a - (a / 2 &&& 0x55)

/-- The sum of each two neighbouring pairs. -/
def nibbleSums (a : ℕ) : ℕ := (a &&& 0x33) + (a / 4 &&& 0x33)

/-- What the steps do to one byte, whatever is shifted into it from the next. -/
theorem byte_steps : ∀ a < 256,
    (∀ t < 2, (a / 2 + 128 * t) &&& 0x55 = a / 2 &&& 0x55) ∧ a / 2 &&& 0x55 ≤ a ∧
    (∀ t < 4, (pairSums a / 4 + 64 * t) &&& 0x33 = pairSums a / 4 &&& 0x33) ∧
    nibbleSums (pairSums a) % 16 + nibbleSums (pairSums a) / 16 = bitCount 8 a ∧
    nibbleSums (pairSums a) % 16 ≤ 4 ∧ nibbleSums (pairSums a) / 16 ≤ 4 := by
  decide +kernel

section Sums

variable {a b c d : ℕ} (ha : a < 256) (hb : b < 256) (hc : c < 256)
include ha hb hc

theorem lanes_pairSums (hd : d < 256) : lanes a b c d - (lanes a b c d / 2 &&& 0x55555555) =
    lanes (pairSums a) (pairSums b) (pairSums c) (pairSums d) := by
  obtain ⟨ha₁, ha₂, -⟩ := byte_steps a ha
  obtain ⟨hb₁, hb₂, -⟩ := byte_steps b hb
  obtain ⟨hc₁, hc₂, -⟩ := byte_steps c hc
  obtain ⟨-, hd₂, -⟩ := byte_steps d hd
  have hshift : lanes a b c d / 2 = lanes (a / 2 + 128 * (b % 2)) (b / 2 + 128 * (c % 2))
      (c / 2 + 128 * (d % 2)) (d / 2) := by
    unfold lanes
    omega
  have hmask : 0x55555555 = lanes 0x55 0x55 0x55 0x55 := rfl
  rw [hshift, hmask, lanes_and (by omega) (by omega) (by omega) (by omega) (by omega) (by omega),
    ha₁ _ (Nat.mod_lt _ (by decide)), hb₁ _ (Nat.mod_lt _ (by decide)),
    hc₁ _ (Nat.mod_lt _ (by decide))]
  unfold lanes pairSums
  omega

theorem lanes_nibbleSums :
    (lanes (pairSums a) (pairSums b) (pairSums c) (pairSums d) &&& 0x33333333) +
      (lanes (pairSums a) (pairSums b) (pairSums c) (pairSums d) / 4 &&& 0x33333333) =
    lanes (nibbleSums (pairSums a)) (nibbleSums (pairSums b)) (nibbleSums (pairSums c))
      (nibbleSums (pairSums d)) := by
  have hle (x : ℕ) : pairSums x ≤ x := Nat.sub_le _ _
  have ha₀ := hle a
  have hb₀ := hle b
  have hc₀ := hle c
  obtain ⟨-, -, ha₁, -⟩ := byte_steps a ha
  obtain ⟨-, -, hb₁, -⟩ := byte_steps b hb
  obtain ⟨-, -, hc₁, -⟩ := byte_steps c hc
  have hshift : lanes (pairSums a) (pairSums b) (pairSums c) (pairSums d) / 4 =
      lanes (pairSums a / 4 + 64 * (pairSums b % 4)) (pairSums b / 4 + 64 * (pairSums c % 4))
        (pairSums c / 4 + 64 * (pairSums d % 4)) (pairSums d / 4) := by
    unfold lanes
    omega
  have hmask : 0x33333333 = lanes 0x33 0x33 0x33 0x33 := rfl
  rw [hshift, hmask, lanes_and (by omega) (by omega) (by omega) (by omega) (by omega) (by omega),
    lanes_and (by omega) (by omega) (by omega) (by omega) (by omega) (by omega),
    ha₁ _ (Nat.mod_lt _ (by decide)), hb₁ _ (Nat.mod_lt _ (by decide)),
    hc₁ _ (Nat.mod_lt _ (by decide))]
  unfold lanes nibbleSums
  omega

end Sums

/-- Nibbles of at most 4 are added up without a carry. -/
theorem lanes_byteSums {a b c d : ℕ} (ha : a % 16 ≤ 4 ∧ a / 16 ≤ 4) (hb : b % 16 ≤ 4 ∧ b / 16 ≤ 4)
    (hc : c % 16 ≤ 4 ∧ c / 16 ≤ 4) (hd : d % 16 ≤ 4 ∧ d / 16 ≤ 4) :
    (lanes a b c d + lanes a b c d / 16) &&& 0x0F0F0F0F =
      lanes (a % 16 + a / 16) (b % 16 + b / 16) (c % 16 + c / 16) (d % 16 + d / 16) := by
  have hsum : lanes a b c d + lanes a b c d / 16 =
      lanes (a + a / 16 + 16 * (b % 16)) (b + b / 16 + 16 * (c % 16))
        (c + c / 16 + 16 * (d % 16)) (d + d / 16) := by
    unfold lanes
    omega
  have hmask : 0x0F0F0F0F = lanes (2 ^ 4 - 1) (2 ^ 4 - 1) (2 ^ 4 - 1) (2 ^ 4 - 1) := rfl
  have hlow {x t : ℕ} (hx : x % 16 ≤ 4 ∧ x / 16 ≤ 4) :
      (x + x / 16 + 16 * t) &&& (2 ^ 4 - 1) = x % 16 + x / 16 := by
    rw [Nat.and_two_pow_sub_one_eq_mod]
    omega
  have htop := hlow (t := 0) hd
  rw [Nat.mul_zero, Nat.add_zero] at htop
  rw [hsum, hmask, lanes_and (by omega) (by omega) (by omega) (by omega) (by omega) (by omega),
    hlow ha, hlow hb, hlow hc, htop]

/-- The four bytes are added up in the lowest. -/
theorem lanes_total {a b c d : ℕ} (ha : a ≤ 8) (hb : b ≤ 8) (hc : c ≤ 8) (hd : d ≤ 8) :
    (lanes a b c d + lanes a b c d / 256 + (lanes a b c d + lanes a b c d / 256) / 65536) % 128 =
      a + (b + (c + d)) := by
  have hfirst : lanes a b c d + lanes a b c d / 256 = lanes (a + b) (b + c) (c + d) d := by
    unfold lanes
    omega
  have hsecond : lanes (a + b) (b + c) (c + d) d / 65536 = c + d + 256 * d := by
    unfold lanes
    omega
  rw [hfirst, hsecond]
  unfold lanes
  omega

theorem exists_lanes {n : ℕ} (h : n < 2 ^ 32) :
    ∃ a < 256, ∃ b < 256, ∃ c < 256, ∃ d < 256, n = lanes a b c d := by
  refine ⟨n % 256, by omega, n / 256 % 256, by omega, n / 65536 % 256, by omega,
    n / 16777216, by omega, ?_⟩
  unfold lanes
  omega

theorem lanes_le {a b c d n : ℕ} (ha : a ≤ n) (hb : b ≤ n) (hc : c ≤ n) (hd : d ≤ n) :
    lanes a b c d ≤ n * 16843009 := by
  unfold lanes
  omega

theorem lanes_lt {a b c d : ℕ} (ha : a < 256) (hb : b < 256) (hc : c < 256) (hd : d < 256) :
    lanes a b c d < 2 ^ 32 := by
  unfold lanes
  omega

/-- The steps of a branch-free population count of 32 bits. -/
def popcount (hw : BitVec 32) : BitVec 32 :=
  let hw := hw - ((hw >>> 1) &&& 0x55555555#32)
  let hw := (hw &&& 0x33333333#32) + ((hw >>> 2) &&& 0x33333333#32)
  let hw := (hw + (hw >>> 4)) &&& 0x0F0F0F0F#32
  let hw := hw + (hw >>> 8)
  let hw := hw + (hw >>> 16)
  hw &&& 0x7F#32

theorem toNat_ushiftRight_and (hw : BitVec 32) (s : ℕ) (m : BitVec 32) :
    ((hw >>> s) &&& m).toNat = hw.toNat / 2 ^ s &&& m.toNat := by
  rw [BitVec.toNat_and, BitVec.toNat_ushiftRight, Nat.shiftRight_eq_div_pow]

theorem toNat_add_ushiftRight (hw : BitVec 32) (s : ℕ) (h : hw.toNat + hw.toNat / 2 ^ s < 2 ^ 32) :
    (hw + (hw >>> s)).toNat = hw.toNat + hw.toNat / 2 ^ s := by
  rw [BitVec.toNat_add, BitVec.toNat_ushiftRight, Nat.shiftRight_eq_div_pow, Nat.mod_eq_of_lt h]

/-- They count the bits of every word. -/
theorem popcount_toNat (hw : BitVec 32) : (popcount hw).toNat = bitCount 32 hw.toNat := by
  obtain ⟨a, ha, b, hb, c, hc, d, hd, hlanes⟩ := exists_lanes hw.isLt
  obtain ⟨-, -, -, ha₁, ha₂⟩ := byte_steps a ha
  obtain ⟨-, -, -, hb₁, hb₂⟩ := byte_steps b hb
  obtain ⟨-, -, -, hc₁, hc₂⟩ := byte_steps c hc
  obtain ⟨-, -, -, hd₁, hd₂⟩ := byte_steps d hd
  rw [popcount, hlanes, bitCount_lanes ha hb hc]
  have hpairs : (hw - ((hw >>> 1) &&& 0x55555555#32)).toNat =
      lanes (pairSums a) (pairSums b) (pairSums c) (pairSums d) := by
    have hmask := toNat_ushiftRight_and hw 1 0x55555555#32
    have hle : (hw >>> 1) &&& 0x55555555#32 ≤ hw := by
      rw [BitVec.le_def, hmask]
      exact Nat.le_trans Nat.and_le_left (Nat.div_le_self _ _)
    rw [BitVec.toNat_sub_of_le hle, hmask, hlanes]
    exact lanes_pairSums ha hb hc hd
  generalize hw - ((hw >>> 1) &&& 0x55555555#32) = x at hpairs ⊢
  have hnibbles : ((x &&& 0x33333333#32) + ((x >>> 2) &&& 0x33333333#32)).toNat =
      lanes (nibbleSums (pairSums a)) (nibbleSums (pairSums b)) (nibbleSums (pairSums c))
        (nibbleSums (pairSums d)) := by
    have hlt := lanes_lt (a := nibbleSums (pairSums a)) (b := nibbleSums (pairSums b))
      (c := nibbleSums (pairSums c)) (d := nibbleSums (pairSums d)) (by omega) (by omega)
      (by omega) (by omega)
    have hsum := lanes_nibbleSums (d := d) ha hb hc
    rw [BitVec.toNat_add, toNat_ushiftRight_and, BitVec.toNat_and, hpairs]
    exact (congrArg (· % 2 ^ 32) hsum).trans (Nat.mod_eq_of_lt hlt)
  generalize (x &&& 0x33333333#32) + ((x >>> 2) &&& 0x33333333#32) = y at hnibbles ⊢
  have hbytes : ((y + (y >>> 4)) &&& 0x0F0F0F0F#32).toNat =
      lanes (bitCount 8 a) (bitCount 8 b) (bitCount 8 c) (bitCount 8 d) := by
    have hle := lanes_le (n := 68) (a := nibbleSums (pairSums a)) (b := nibbleSums (pairSums b))
      (c := nibbleSums (pairSums c)) (d := nibbleSums (pairSums d)) (by omega) (by omega)
      (by omega) (by omega)
    have hsum := lanes_byteSums ha₂ hb₂ hc₂ hd₂
    rw [ha₁, hb₁, hc₁, hd₁] at hsum
    rw [BitVec.toNat_and, toNat_add_ushiftRight y 4 (by omega), hnibbles]
    exact hsum
  generalize (y + (y >>> 4)) &&& 0x0F0F0F0F#32 = z at hbytes ⊢
  have hle := lanes_le (n := 8) (a := bitCount 8 a) (b := bitCount 8 b) (c := bitCount 8 c)
    (d := bitCount 8 d) (by omega) (by omega) (by omega) (by omega)
  have hfirst := toNat_add_ushiftRight z 8 (by omega)
  have hsecond := toNat_add_ushiftRight (z + (z >>> 8)) 16 (by omega)
  have hmask : (0x7F#32).toNat = 2 ^ 7 - 1 := rfl
  rw [BitVec.toNat_and, hsecond, hfirst, hmask, Nat.and_two_pow_sub_one_eq_mod, hbytes]
  exact lanes_total (by omega) (by omega) (by omega) (by omega)

end Redx.Library
