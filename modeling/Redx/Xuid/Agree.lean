import Redx.Xuid.Codec
import Redx.Monitor.UUID
import Mathlib.Tactic.Ring

/-!
# The codecs agree

The bytes of a GUID, taken in the order of the text, are those of the UUID with that text, so the
two formats and the two parsers do the same. The class `UUID` has a third copy of the code.
-/
namespace Redx.Xuid
open Monitor (UUID)

variable {a b c d e f g h : UInt8} {s : Text}

section Words

/-- A digit below those already joined. -/
theorem or_digit {m n k : ℕ} (hn : n < 16) :
    m * 2 ^ (k + 4) ||| n * 2 ^ k = (m * 16 + n) * 2 ^ k := by
  have hlt : n * 2 ^ k < 2 ^ (k + 4) := by
    rw [pow_add, Nat.mul_comm (2 ^ k)]
    exact Nat.mul_lt_mul_of_pos_right hn (Nat.two_pow_pos k)
  rw [← Nat.shiftLeft_eq m, ← Nat.shiftLeft_add_eq_or_of_lt hlt, Nat.shiftLeft_eq, pow_add]
  ring

theorem toNat_shifted (hc : value c < 16) {k : UInt32} {j : ℕ} (hk : k.toNat = j) (hj : j ≤ 28) :
    (hexval c <<< k).toNat = value c * 2 ^ j := by
  have hpow : 2 ^ j ≤ 2 ^ 28 := Nat.pow_le_pow_right (by decide) hj
  have hlt : value c * 2 ^ j < 2 ^ 32 := by
    calc value c * 2 ^ j ≤ 15 * 2 ^ 28 := Nat.mul_le_mul (by omega) hpow
      _ < 2 ^ 32 := by decide
  rw [UInt32.toNat_shiftLeft, hk, Nat.mod_eq_of_lt (by omega : j < 32), Nat.shiftLeft_eq]
  exact Nat.mod_eq_of_lt hlt

theorem octet_toNat (ha : value a < 16) (hb : value b < 16) :
    (octet a b).toNat = value a * 16 + value b := by
  rw [octet, UInt32.toNat_toUInt8, UInt32.toNat_add, toNat_shifted ha (j := 4) rfl (by decide)]
  change (value a * 2 ^ 4 + value b) % _ % _ = _
  omega

theorem word32_toNat (ha : value a < 16) (hb : value b < 16) (hc : value c < 16)
    (hd : value d < 16) (he : value e < 16) (hf : value f < 16) (hg : value g < 16)
    (hh : value h < 16) : (word32 a b c d e f g h).toNat =
      ((((((value a * 16 + value b) * 16 + value c) * 16 + value d) * 16 + value e) * 16 +
        value f) * 16 + value g) * 16 + value h := by
  have hlow : (hexval h).toNat = value h * 2 ^ 0 := (Nat.mul_one _).symm
  simp only [word32, UInt32.toNat_or, UInt32.toNat_zero, Nat.zero_or]
  rw [toNat_shifted ha (j := 28) rfl (by decide), toNat_shifted hb (j := 24) rfl (by decide),
    toNat_shifted hc (j := 20) rfl (by decide), toNat_shifted hd (j := 16) rfl (by decide),
    toNat_shifted he (j := 12) rfl (by decide), toNat_shifted hf (j := 8) rfl (by decide),
    toNat_shifted hg (j := 4) rfl (by decide), hlow]
  rw [or_digit hb, or_digit hc, or_digit hd, or_digit he, or_digit hf, or_digit hg, or_digit hh]
  exact Nat.mul_one _

theorem word16_toNat (ha : value a < 16) (hb : value b < 16) (hc : value c < 16)
    (hd : value d < 16) : (word16 a b c d).toNat =
      ((value a * 16 + value b) * 16 + value c) * 16 + value d := by
  have hlow : (hexval d).toNat = value d * 2 ^ 0 := (Nat.mul_one _).symm
  simp only [word16, UInt32.toNat_toUInt16, UInt32.toNat_or, UInt16.toNat_toUInt32,
    UInt16.toNat_zero, Nat.zero_or]
  rw [toNat_shifted ha (j := 12) rfl (by decide), toNat_shifted hb (j := 8) rfl (by decide),
    toNat_shifted hc (j := 4) rfl (by decide), hlow]
  -- no step goes beyond the sixteen bits
  rw [Nat.mod_eq_of_lt (by omega : value a * 2 ^ 12 < 2 ^ 16), or_digit hb,
    Nat.mod_eq_of_lt (by omega : (value a * 16 + value b) * 2 ^ 8 < 2 ^ 16), or_digit hc,
    Nat.mod_eq_of_lt (by omega : ((value a * 16 + value b) * 16 + value c) * 2 ^ 4 < 2 ^ 16),
    or_digit hd, Nat.mod_eq_of_lt (by omega)]
  exact Nat.mul_one _

theorem mask (n : ℕ) : n &&& 15 = n % 16 := Nat.and_two_pow_sub_one_eq_mod n 4

theorem nybble8 (x : UInt8) : ((x >>> 4) &&& 0xF).toNat = x.toNat / 16 := by
  have hx := x.toNat_lt
  rw [UInt8.toNat_and, UInt8.toNat_shiftRight]
  change x.toNat >>> 4 &&& 15 = _
  rw [mask, Nat.shiftRight_eq_div_pow]
  omega

theorem nybble32 (x : UInt32) {k : UInt32} (hk : k.toNat < 32) :
    ((x >>> k) &&& 0xF).toNat = x.toNat / 2 ^ k.toNat % 16 := by
  rw [UInt32.toNat_and, UInt32.toNat_shiftRight, Nat.mod_eq_of_lt hk, Nat.shiftRight_eq_div_pow]
  exact mask _

theorem nybble16 (x : UInt16) {k : UInt16} (hk : k.toNat < 16) :
    ((x >>> k) &&& 0xF).toNat = x.toNat / 2 ^ k.toNat % 16 := by
  rw [UInt16.toNat_and, UInt16.toNat_shiftRight, Nat.mod_eq_of_lt hk, Nat.shiftRight_eq_div_pow]
  exact mask _

theorem byte32 (x : UInt32) {k : UInt32} (hk : k.toNat < 32) :
    (x >>> k).toUInt8.toNat = x.toNat / 2 ^ k.toNat % 256 := by
  rw [UInt32.toNat_toUInt8, UInt32.toNat_shiftRight, Nat.mod_eq_of_lt hk,
    Nat.shiftRight_eq_div_pow]

theorem byte16 (x : UInt16) {k : UInt16} (hk : k.toNat < 16) :
    (x >>> k).toUInt8.toNat = x.toNat / 2 ^ k.toNat % 256 := by
  rw [UInt16.toNat_toUInt8, UInt16.toNat_shiftRight, Nat.mod_eq_of_lt hk,
    Nat.shiftRight_eq_div_pow]

/-- The upper digit of a byte of a word. -/
theorem high32 (x : UInt32) {k l : UInt32} (hl : l.toNat = k.toNat + 4) (hk : l.toNat < 32) :
    ((x >>> l) &&& 0xF).toNat = (((x >>> k).toUInt8 >>> 4) &&& 0xF).toNat := by
  rw [nybble32 x hk, nybble8, byte32 x (by omega), hl, pow_add, ← Nat.div_div_eq_div_mul]
  omega

theorem low32 (x : UInt32) {k : UInt32} (hk : k.toNat < 32) :
    ((x >>> k) &&& 0xF).toNat = ((x >>> k).toUInt8 &&& 0xF).toNat := by
  rw [nybble32 x hk, UInt8.toNat_and, byte32 x hk]
  change _ = _ &&& 15
  rw [mask]
  omega

theorem high16 (x : UInt16) {k l : UInt16} (hl : l.toNat = k.toNat + 4) (hk : l.toNat < 16) :
    ((x >>> l) &&& 0xF).toNat = (((x >>> k).toUInt8 >>> 4) &&& 0xF).toNat := by
  rw [nybble16 x hk, nybble8, byte16 x (by omega), hl, pow_add, ← Nat.div_div_eq_div_mul]
  omega

theorem low16 (x : UInt16) {k : UInt16} (hk : k.toNat < 16) :
    ((x >>> k) &&& 0xF).toNat = ((x >>> k).toUInt8 &&& 0xF).toNat := by
  rw [nybble16 x hk, UInt8.toNat_and, byte16 x hk]
  change _ = _ &&& 15
  rw [mask]
  omega

end Words

theorem column_lt (n : Fin 32) : n.val + (if 8 ≤ n.val then 1 else 0) +
    (if 12 ≤ n.val then 1 else 0) + (if 16 ≤ n.val then 1 else 0) +
    (if 20 ≤ n.val then 1 else 0) < 36 := by
  split_ifs <;> omega

/-- The column of a digit. -/
def column (n : Fin 32) : Fin 36 := ⟨_, column_lt n⟩

theorem high_lt (i : Fin 16) : 2 * i.val < 32 := by omega

theorem low_lt (i : Fin 16) : 2 * i.val + 1 < 32 := by omega

/-- The two digits of a byte. -/
def high (i : Fin 16) : Fin 32 := ⟨2 * i.val, high_lt i⟩

def low (i : Fin 16) : Fin 32 := ⟨2 * i.val + 1, low_lt i⟩

theorem eq_high_or_low (n : Fin 32) : ∃ i, n = high i ∨ n = low i := by
  refine ⟨⟨n.val / 2, by omega⟩, ?_⟩
  simp only [high, low, Fin.ext_iff]
  omega

theorem eq_column (c : Fin 36) : c = 8 ∨ c = 13 ∨ c = 18 ∨ c = 23 ∨ ∃ n, c = column n := by
  revert c
  decide

theorem WellFormed.hex (hs : WellFormed s) (n : Fin 32) : IsHex (s (column n)) := by
  have hc : ∀ n, ¬ (column n = 8 ∨ column n = 13 ∨ column n = 18 ∨ column n = 23) := by decide
  have := hs (column n)
  rwa [if_neg (hc n)] at this

theorem WellFormed.hyphen (hs : WellFormed s) {c : Fin 36}
    (hc : c = 8 ∨ c = 13 ∨ c = 18 ∨ c = 23) : s c = 45 := by
  have := hs c
  rwa [if_pos hc] at this

theorem parseUuid_apply (i : Fin 16) :
    parseUuid s i = octet (s (column (high i))) (s (column (low i))) := by
  fin_cases i <;> rfl

theorem formatUuid_column (data : Uuid) (n : Fin 32) :
    formatUuid data (column n) = hexchar (nybble data n).toNat := by
  fin_cases n <;> rfl

theorem formatUuid_hyphen (data : Uuid) {c : Fin 36} (hc : c = 8 ∨ c = 13 ∨ c = 18 ∨ c = 23) :
    formatUuid data c = 45 := by
  rcases hc with rfl | rfl | rfl | rfl <;> rfl

theorem nybble_high (data : Uuid) (i : Fin 16) :
    (nybble data (high i)).toNat = (data i).toNat / 16 := by
  have hi : 2 * i.val / 2 % 16 = i.val := by omega
  simp only [nybble, high, hi, Nat.mul_mod_right, zero_ne_one, if_false]
  exact nybble8 _

theorem nybble_low (data : Uuid) (i : Fin 16) :
    (nybble data (low i)).toNat = (data i).toNat % 16 := by
  have hi : (2 * i.val + 1) / 2 % 16 = i.val := by omega
  have hodd : (2 * i.val + 1) % 2 = 1 := by omega
  simp only [nybble, low, hi, hodd, if_true, UInt8.toNat_and]
  exact mask _

theorem nybble_lt (data : Uuid) (n : Fin 32) : (nybble data n).toNat < 16 := by
  obtain ⟨i, rfl | rfl⟩ := eq_high_or_low n
  · have hlt := (data i).toNat_lt
    rw [nybble_high]
    omega
  · rw [nybble_low]
    exact Nat.mod_lt _ (by decide)

/-- Every text that `format_uuid` writes is one that the parsers are made for. -/
theorem wellFormed_format (data : Uuid) : WellFormed (formatUuid data) := by
  intro c
  split
  · rename_i hc
    exact formatUuid_hyphen data hc
  · rename_i hc
    rcases eq_column c with h | h | h | h | ⟨n, rfl⟩
    · exact absurd (.inl h) hc
    · exact absurd (.inr (.inl h)) hc
    · exact absurd (.inr (.inr (.inl h))) hc
    · exact absurd (.inr (.inr (.inr h))) hc
    · rw [formatUuid_column]
      exact isHex_hexchar (nybble_lt data n)

/-- What is printed after parsing is the lower case of the text. -/
theorem format_parse_uuid (hs : WellFormed s) :
    formatUuid (parseUuid s) = fun c => lower (s c) := by
  have hdigit : ∀ n, hexchar (nybble (parseUuid s) n).toNat = lower (s (column n)) := by
    intro n
    rw [← (hs.hex n).hexchar_value]
    obtain ⟨i, rfl | rfl⟩ := eq_high_or_low n
    all_goals
      have ha := (hs.hex (high i)).value_lt
      have hb := (hs.hex (low i)).value_lt
    · rw [nybble_high, parseUuid_apply, octet_toNat ha hb]
      congr 1
      omega
    · rw [nybble_low, parseUuid_apply, octet_toNat ha hb]
      congr 1
      omega
  have hhyphen : ∀ c, (c = 8 ∨ c = 13 ∨ c = 18 ∨ c = 23) →
      formatUuid (parseUuid s) c = lower (s c) := by
    intro c hc
    rw [formatUuid_hyphen _ hc, hs.hyphen hc]
    decide
  funext c
  rcases eq_column c with h | h | h | h | ⟨n, rfl⟩
  · exact hhyphen c (.inl h)
  · exact hhyphen c (.inr (.inl h))
  · exact hhyphen c (.inr (.inr (.inl h)))
  · exact hhyphen c (.inr (.inr (.inr h)))
  · rw [formatUuid_column, hdigit]

theorem parse_format_uuid (data : Uuid) : parseUuid (formatUuid data) = data := by
  funext i
  rw [parseUuid_apply, formatUuid_column, formatUuid_column, ← UInt8.toNat_inj]
  have hlt := (data i).toNat_lt
  have hhigh := value_hexchar (nybble_lt data (high i))
  have hlow := value_hexchar (nybble_lt data (low i))
  rw [octet_toNat (hhigh.trans_lt (nybble_lt ..)) (hlow.trans_lt (nybble_lt ..)), hhigh, hlow,
    nybble_high, nybble_low]
  omega

/-- Where a byte of the text order lies in memory: bytes 0 to 3 reversed, 4 and 5 swapped, 6 and
7 swapped. -/
def swap : Fin 16 → Fin 16 := ![3, 2, 1, 0, 5, 4, 7, 6, 8, 9, 10, 11, 12, 13, 14, 15]

theorem reversed {α : Type} (x0 x1 x2 x3 x4 x5 x6 x7 x8 x9 x10 x11 x12 x13 x14 x15 : α)
    (i : Fin 16) :
    ![x3, x2, x1, x0, x5, x4, x7, x6, x8, x9, x10, x11, x12, x13, x14, x15] i =
      ![x0, x1, x2, x3, x4, x5, x6, x7, x8, x9, x10, x11, x12, x13, x14, x15] (swap i) := by
  fin_cases i <;> simp [swap]

theorem raw_eq (g : Guid) : g.raw = fun i => g.bytes (swap i) := by
  funext i
  exact reversed ..

theorem bytes_mk (x : UInt32) (y z : UInt16) (d0 d1 d2 d3 d4 d5 d6 d7 : UInt8) :
    Guid.bytes ⟨x, y, z, ![d0, d1, d2, d3, d4, d5, d6, d7]⟩ = ![
      (x >>> 24).toUInt8, (x >>> 16).toUInt8, (x >>> 8).toUInt8, x.toUInt8,
      (y >>> 8).toUInt8, y.toUInt8, (z >>> 8).toUInt8, z.toUInt8,
      d0, d1, d2, d3, d4, d5, d6, d7] := rfl

/-- The text, byte by byte. -/
theorem formatUuid_vec (x0 x1 x2 x3 x4 x5 x6 x7 x8 x9 x10 x11 x12 x13 x14 x15 : UInt8) :
    formatUuid ![x0, x1, x2, x3, x4, x5, x6, x7, x8, x9, x10, x11, x12, x13, x14, x15] = ![
      hexchar ((x0 >>> 4) &&& 0xF).toNat, hexchar (x0 &&& 0xF).toNat,
      hexchar ((x1 >>> 4) &&& 0xF).toNat, hexchar (x1 &&& 0xF).toNat,
      hexchar ((x2 >>> 4) &&& 0xF).toNat, hexchar (x2 &&& 0xF).toNat,
      hexchar ((x3 >>> 4) &&& 0xF).toNat, hexchar (x3 &&& 0xF).toNat, 45,
      hexchar ((x4 >>> 4) &&& 0xF).toNat, hexchar (x4 &&& 0xF).toNat,
      hexchar ((x5 >>> 4) &&& 0xF).toNat, hexchar (x5 &&& 0xF).toNat, 45,
      hexchar ((x6 >>> 4) &&& 0xF).toNat, hexchar (x6 &&& 0xF).toNat,
      hexchar ((x7 >>> 4) &&& 0xF).toNat, hexchar (x7 &&& 0xF).toNat, 45,
      hexchar ((x8 >>> 4) &&& 0xF).toNat, hexchar (x8 &&& 0xF).toNat,
      hexchar ((x9 >>> 4) &&& 0xF).toNat, hexchar (x9 &&& 0xF).toNat, 45,
      hexchar ((x10 >>> 4) &&& 0xF).toNat, hexchar (x10 &&& 0xF).toNat,
      hexchar ((x11 >>> 4) &&& 0xF).toNat, hexchar (x11 &&& 0xF).toNat,
      hexchar ((x12 >>> 4) &&& 0xF).toNat, hexchar (x12 &&& 0xF).toNat,
      hexchar ((x13 >>> 4) &&& 0xF).toNat, hexchar (x13 &&& 0xF).toNat,
      hexchar ((x14 >>> 4) &&& 0xF).toNat, hexchar (x14 &&& 0xF).toNat,
      hexchar ((x15 >>> 4) &&& 0xF).toNat, hexchar (x15 &&& 0xF).toNat] := rfl

/-- A GUID is printed like the UUID with its bytes. -/
theorem formatGuid_eq (g : Guid) : formatGuid g = formatUuid g.bytes := by
  have hlow32 := low32 g.data1 (k := 0) (by decide)
  have hhigh32 := high32 g.data1 (k := 0) (l := 4) rfl (by decide)
  have hlow16 := fun x : UInt16 => low16 x (k := 0) (by decide)
  have hhigh16 := fun x : UInt16 => high16 x (k := 0) (l := 4) rfl (by decide)
  simp only [UInt32.shiftRight_zero, UInt16.shiftRight_zero] at hlow32 hlow16 hhigh32 hhigh16
  rw [Guid.bytes, formatUuid_vec]
  simp only [formatGuid, hlow32, hlow16 g.data2, hlow16 g.data3, hhigh32, hhigh16 g.data2,
    hhigh16 g.data3,
    high32 g.data1 (k := 24) (l := 28) rfl (by decide), low32 g.data1 (k := 24) (by decide),
    high32 g.data1 (k := 16) (l := 20) rfl (by decide), low32 g.data1 (k := 16) (by decide),
    high32 g.data1 (k := 8) (l := 12) rfl (by decide), low32 g.data1 (k := 8) (by decide),
    high16 g.data2 (k := 8) (l := 12) rfl (by decide), low16 g.data2 (k := 8) (by decide),
    high16 g.data3 (k := 8) (l := 12) rfl (by decide), low16 g.data3 (k := 8) (by decide)]

section Digits

variable (ha : IsHex a) (hb : IsHex b) (hc : IsHex c) (hd : IsHex d)
include ha hb hc hd

/-- The bytes of a word of 32 bits are those of its pairs of digits. -/
theorem word32_bytes (he : IsHex e) (hf : IsHex f) (hg : IsHex g) (hh : IsHex h) :
    (word32 a b c d e f g h >>> 24).toUInt8 = octet a b ∧
    (word32 a b c d e f g h >>> 16).toUInt8 = octet c d ∧
    (word32 a b c d e f g h >>> 8).toUInt8 = octet e f ∧
    (word32 a b c d e f g h).toUInt8 = octet g h := by
  have ha := ha.value_lt
  have hb := hb.value_lt
  have hc := hc.value_lt
  have hd := hd.value_lt
  have he := he.value_lt
  have hf := hf.value_lt
  have hg := hg.value_lt
  have hh := hh.value_lt
  have hword := word32_toNat ha hb hc hd he hf hg hh
  simp only [← UInt8.toNat_inj]
  rw [byte32 _ (k := 24) (by decide), byte32 _ (k := 16) (by decide),
    byte32 _ (k := 8) (by decide), UInt32.toNat_toUInt8, octet_toNat ha hb, octet_toNat hc hd,
    octet_toNat he hf, octet_toNat hg hh, hword]
  change _ / 2 ^ 24 % 256 = _ ∧ _ / 2 ^ 16 % 256 = _ ∧ _ / 2 ^ 8 % 256 = _ ∧ _
  omega

theorem word16_bytes : (word16 a b c d >>> 8).toUInt8 = octet a b ∧
    (word16 a b c d).toUInt8 = octet c d := by
  have ha := ha.value_lt
  have hb := hb.value_lt
  have hc := hc.value_lt
  have hd := hd.value_lt
  simp only [← UInt8.toNat_inj]
  rw [byte16 _ (k := 8) (by decide), UInt16.toNat_toUInt8, octet_toNat ha hb, octet_toNat hc hd,
    word16_toNat ha hb hc hd]
  change _ / 2 ^ 8 % 256 = _ ∧ _
  omega

end Digits

/-- A text is parsed to the same bytes, in the order of the text. -/
theorem bytes_parseGuid (hs : WellFormed s) : (parseGuid s).bytes = parseUuid s := by
  obtain ⟨h0, h1, h2, h3⟩ := word32_bytes (hs.hex 0) (hs.hex 1) (hs.hex 2) (hs.hex 3) (hs.hex 4)
    (hs.hex 5) (hs.hex 6) (hs.hex 7)
  obtain ⟨h4, h5⟩ := word16_bytes (hs.hex 8) (hs.hex 9) (hs.hex 10) (hs.hex 11)
  obtain ⟨h6, h7⟩ := word16_bytes (hs.hex 12) (hs.hex 13) (hs.hex 14) (hs.hex 15)
  rw [parseGuid, bytes_mk, parseUuid]
  exact congrArg₂ _ h0 (congrArg₂ _ h1 (congrArg₂ _ h2 (congrArg₂ _ h3 (congrArg₂ _ h4
    (congrArg₂ _ h5 (congrArg₂ _ h6 (congrArg₂ _ h7 rfl)))))))

theorem word32_ext {x y : UInt32} (h0 : (x >>> 24).toUInt8 = (y >>> 24).toUInt8)
    (h1 : (x >>> 16).toUInt8 = (y >>> 16).toUInt8) (h2 : (x >>> 8).toUInt8 = (y >>> 8).toUInt8)
    (h3 : x.toUInt8 = y.toUInt8) : x = y := by
  have hx := x.toNat_lt
  have hy := y.toNat_lt
  rw [← UInt8.toNat_inj, byte32 x (by decide), byte32 y (by decide)] at h0 h1 h2
  rw [← UInt8.toNat_inj, UInt32.toNat_toUInt8, UInt32.toNat_toUInt8] at h3
  change _ / 2 ^ 24 % 256 = _ / 2 ^ 24 % 256 at h0
  change _ / 2 ^ 16 % 256 = _ / 2 ^ 16 % 256 at h1
  change _ / 2 ^ 8 % 256 = _ / 2 ^ 8 % 256 at h2
  rw [← UInt32.toNat_inj]
  omega

theorem word16_ext {x y : UInt16} (h0 : (x >>> 8).toUInt8 = (y >>> 8).toUInt8)
    (h1 : x.toUInt8 = y.toUInt8) : x = y := by
  have hx := x.toNat_lt
  have hy := y.toNat_lt
  rw [← UInt8.toNat_inj, byte16 x (by decide), byte16 y (by decide)] at h0
  rw [← UInt8.toNat_inj, UInt16.toNat_toUInt8, UInt16.toNat_toUInt8] at h1
  change _ / 2 ^ 8 % 256 = _ / 2 ^ 8 % 256 at h0
  rw [← UInt16.toNat_inj]
  omega

/-- The bytes determine the GUID. -/
theorem Guid.bytes_injective {g g' : Guid} (h : g.bytes = g'.bytes) : g = g' := by
  obtain ⟨x1, x2, x3, x4⟩ := g
  obtain ⟨y1, y2, y3, y4⟩ := g'
  have h1 : x1 = y1 := word32_ext (congrFun h 0) (congrFun h 1) (congrFun h 2) (congrFun h 3)
  have h2 : x2 = y2 := word16_ext (congrFun h 4) (congrFun h 5)
  have h3 : x3 = y3 := word16_ext (congrFun h 6) (congrFun h 7)
  have h4 : x4 = y4 := by
    funext i
    fin_cases i
    · exact congrFun h 8
    · exact congrFun h 9
    · exact congrFun h 10
    · exact congrFun h 11
    · exact congrFun h 12
    · exact congrFun h 13
    · exact congrFun h 14
    · exact congrFun h 15
  rw [h1, h2, h3, h4]

theorem parse_format_guid (g : Guid) : parseGuid (formatGuid g) = g := by
  refine Guid.bytes_injective ?_
  rw [formatGuid_eq, bytes_parseGuid (wellFormed_format _), parse_format_uuid]

section Class

/-- The digits of the class are those of the functions. -/
theorem class_octet (ha : IsHex a) (hb : IsHex b) :
    (UUID.hexval a <<< 4) + UUID.hexval b = octet a b := by
  have hval : ∀ c : UInt8, IsHex c → (UUID.hexval c).toNat = value c := by
    have h : ∀ n : Fin 256, IsHex (UInt8.ofFin n) →
        (UUID.hexval (UInt8.ofFin n)).toNat = value (UInt8.ofFin n) := by decide +kernel
    exact fun c hc => h c.toFin hc
  have ha' := ha.value_lt
  have hb' := hb.value_lt
  rw [← UInt8.toNat_inj, octet_toNat ha' hb', UInt8.toNat_add, UInt8.toNat_shiftLeft, hval a ha,
    hval b hb]
  change (value a <<< 4 % 256 + value b) % 256 = _
  rw [Nat.shiftLeft_eq]
  omega

/-- The columns of the class are those of the functions. -/
theorem class_column : ∀ n : Fin 32, UUID.column n = (column n).castSucc := by decide

/-- `UUID::parse` does what `parse_uuid` does. -/
theorem class_parse (hs : WellFormed s) {string : Fin 37 → UInt8}
    (hstring : ∀ c : Fin 36, string c.castSucc = s c) : UUID.parse string = parseUuid s := by
  funext i
  rw [UUID.parse, parseUuid_apply, class_column, class_column, hstring, hstring]
  exact class_octet (hs.hex _) (hs.hex _)

/-- `UUID::format` does what `format_uuid` does. -/
theorem class_format (data : Uuid) (c : Fin 36) :
    UUID.format data c.castSucc = formatUuid data c := by
  have hhex : ∀ n : Fin 16, UUID.hex (UInt8.ofNat n) = hexchar n := by decide +kernel
  have hnybble : ∀ n, UUID.nybble data n = nybble data n := by
    intro n
    have hn : n.val / 2 % 16 = n.val / 2 := by omega
    simp only [UUID.nybble, nybble, hn]
  rcases eq_column c with rfl | rfl | rfl | rfl | ⟨n, rfl⟩
  · rfl
  · rfl
  · rfl
  · rfl
  · rw [formatUuid_column, ← class_column, UUID.format, UUID.column_find]
    dsimp only
    have h := hhex ⟨(nybble data n).toNat, nybble_lt data n⟩
    rw [UInt8.ofNat_toNat] at h
    rw [hnybble]
    exact h

end Class

/-- The three codecs print the lower case of every text that they parse, give back every value
that they print, and the memory of a GUID is that of the UUID with three fields reversed. -/
theorem codecs_agree (hs : WellFormed s) :
    formatUuid (parseUuid s) = (fun c => lower (s c)) ∧
    formatGuid (parseGuid s) = (fun c => lower (s c)) ∧
    (∀ input : Fin 37 → UInt8, (∀ c : Fin 36, input c.castSucc = s c) →
      (UUID.ofString input).text = List.ofFn fun c => lower (s c)) ∧
    (parseGuid s).raw = (fun i => parseUuid s (swap i)) ∧
    (∀ data, parseUuid (formatUuid data) = data) ∧
    (∀ data, parseGuid (formatGuid data) = data) ∧
    ∀ data, (UUID.ofString (UUID.ofData data).string).data = data := by
  refine ⟨format_parse_uuid hs, ?_, ?_, ?_, parse_format_uuid, parse_format_guid, ?_⟩
  · rw [formatGuid_eq, bytes_parseGuid hs, format_parse_uuid hs]
  · intro input hinput
    have hupdate : ∀ c : Fin 36, Function.update input 36 0 c.castSucc = s c := by
      intro c
      have hne : c.castSucc ≠ (36 : Fin 37) := Fin.castSucc_ne_last c
      rw [Function.update_of_ne hne, hinput]
    have hdata : (UUID.ofString input).data = parseUuid s := class_parse hs hupdate
    rw [(UUID.ofString_formatted input).text, hdata]
    simp only [class_format, format_parse_uuid hs]
  · rw [raw_eq, bytes_parseGuid hs]
  · intro data
    have hlast : UUID.format data 36 = 0 := UUID.format_last data
    rw [UUID.ofString, UUID.ofData]
    dsimp only
    rw [← hlast, Function.update_eq_self, UUID.parse_format]

/-- `deadbeef-0011-2233-4455-deafcafebabe`, with some digits in upper case. -/
def deadbeef : Text := ![
  68, 69, 65, 68, 98, 101, 101, 102, 45, 48, 48, 49, 49, 45, 50, 50, 51, 51, 45, 52, 52, 53, 53,
  45, 100, 101, 97, 102, 99, 97, 102, 101, 98, 97, 98, 101]

theorem codecs_agree_deadbeef :
    formatUuid (parseUuid deadbeef) = (fun c => lower (deadbeef c)) ∧
    formatGuid (parseGuid deadbeef) = (fun c => lower (deadbeef c)) ∧
    (∀ input : Fin 37 → UInt8, (∀ c : Fin 36, input c.castSucc = deadbeef c) →
      (UUID.ofString input).text = List.ofFn fun c => lower (deadbeef c)) ∧
    (parseGuid deadbeef).raw = (fun i => parseUuid deadbeef (swap i)) ∧
    (∀ data, parseUuid (formatUuid data) = data) ∧
    (∀ data, parseGuid (formatGuid data) = data) ∧
    ∀ data, (UUID.ofString (UUID.ofData data).string).data = data :=
  codecs_agree (by decide)

end Redx.Xuid
