import Mathlib.Data.Fin.VecNotation
import Mathlib.Tactic.FinCases

/-!
# Text and bytes of UUIDs and GUIDs

A UUID is sixteen bytes in the order of the text. A GUID keeps the first half as integers of 32
and 16 bits, whose bytes lie in the order of the host. Both are printed and parsed digit by digit,
thirty-two digits with hyphens between them.
-/
namespace Redx.Xuid

/-- The thirty-six characters that the functions look at or write. -/
abbrev Text := Fin 36 → UInt8

/-- `uuid_t` -/
abbrev Uuid := Fin 16 → UInt8

/-- `guid_t` -/
structure Guid where
  data1 : UInt32
  data2 : UInt16
  data3 : UInt16
  data4 : Fin 8 → UInt8

/-- The `-1` of the table, as the bits of an `int`. -/
def miss : UInt32 := 0xFFFFFFFF

def hexchars : List UInt8 := [48, 49, 50, 51, 52, 53, 54, 55, 56, 57, 97, 98, 99, 100, 101, 102]

def hexvals : List UInt32 := [
  miss, miss, miss, miss, miss, miss, miss, miss, miss, miss, miss, miss, miss, miss, miss, miss,
  miss, miss, miss, miss, miss, miss, miss, miss, miss, miss, miss, miss, miss, miss, miss, miss,
  miss, miss, miss, miss, miss, miss, miss, miss, miss, miss, miss, miss, miss, miss, miss, miss,
  0, 1, 2, 3, 4, 5, 6, 7, 8, 9, miss, miss, miss, miss, miss, miss,
  miss, 10, 11, 12, 13, 14, 15, miss, miss, miss, miss, miss, miss, miss, miss, miss,
  miss, miss, miss, miss, miss, miss, miss, miss, miss, miss, miss, miss, miss, miss, miss, miss,
  miss, 10, 11, 12, 13, 14, 15, miss, miss, miss, miss, miss, miss, miss, miss, miss,
  miss, miss, miss, miss, miss, miss, miss, miss, miss, miss, miss, miss, miss, miss, miss, miss]

def hexchar (n : ℕ) : UInt8 := hexchars.getD n 0

/-- `hexval[ c & 0x7F ]` -/
def hexval (c : UInt8) : UInt32 := hexvals.getD (c &&& 0x7F).toNat 0

/-- A byte from its two digits. -/
def octet (a b : UInt8) : UInt8 := ((hexval a <<< 4) + hexval b).toUInt8

def parseUuid (string : Text) : Uuid := ![
  octet (string 0) (string 1),
  octet (string 2) (string 3),
  octet (string 4) (string 5),
  octet (string 6) (string 7),
  octet (string 9) (string 10),
  octet (string 11) (string 12),
  octet (string 14) (string 15),
  octet (string 16) (string 17),
  octet (string 19) (string 20),
  octet (string 21) (string 22),
  octet (string 24) (string 25),
  octet (string 26) (string 27),
  octet (string 28) (string 29),
  octet (string 30) (string 31),
  octet (string 32) (string 33),
  octet (string 34) (string 35)]

/-- A word of 32 bits from its eight digits, most significant first. -/
def word32 (a b c d e f g h : UInt8) : UInt32 :=
  let data : UInt32 := 0
  let data := data ||| (hexval a <<< 28)
  let data := data ||| (hexval b <<< 24)
  let data := data ||| (hexval c <<< 20)
  let data := data ||| (hexval d <<< 16)
  let data := data ||| (hexval e <<< 12)
  let data := data ||| (hexval f <<< 8)
  let data := data ||| (hexval g <<< 4)
  data ||| hexval h

/-- A word of 16 bits from its four digits; the `int` of each step is cut to the word. -/
def word16 (a b c d : UInt8) : UInt16 :=
  let data : UInt16 := 0
  let data := (data.toUInt32 ||| (hexval a <<< 12)).toUInt16
  let data := (data.toUInt32 ||| (hexval b <<< 8)).toUInt16
  let data := (data.toUInt32 ||| (hexval c <<< 4)).toUInt16
  (data.toUInt32 ||| hexval d).toUInt16

def parseGuid (string : Text) : Guid where
  data1 := word32 (string 0) (string 1) (string 2) (string 3) (string 4) (string 5) (string 6)
    (string 7)
  data2 := word16 (string 9) (string 10) (string 11) (string 12)
  data3 := word16 (string 14) (string 15) (string 16) (string 17)
  data4 := ![
    octet (string 19) (string 20),
    octet (string 21) (string 22),
    octet (string 24) (string 25),
    octet (string 26) (string 27),
    octet (string 28) (string 29),
    octet (string 30) (string 31),
    octet (string 32) (string 33),
    octet (string 34) (string 35)]

def nybble (data : Uuid) (n : Fin 32) : UInt8 :=
  let byte := data ⟨n.val / 2 % 16, Nat.mod_lt _ (by decide)⟩
  if n.val % 2 = 1 then byte &&& 0xF else (byte >>> 4) &&& 0xF

def formatUuid (data : Uuid) : Text := ![
  hexchar (nybble data 0).toNat, hexchar (nybble data 1).toNat,
  hexchar (nybble data 2).toNat, hexchar (nybble data 3).toNat,
  hexchar (nybble data 4).toNat, hexchar (nybble data 5).toNat,
  hexchar (nybble data 6).toNat, hexchar (nybble data 7).toNat,
  45,
  hexchar (nybble data 8).toNat, hexchar (nybble data 9).toNat,
  hexchar (nybble data 10).toNat, hexchar (nybble data 11).toNat,
  45,
  hexchar (nybble data 12).toNat, hexchar (nybble data 13).toNat,
  hexchar (nybble data 14).toNat, hexchar (nybble data 15).toNat,
  45,
  hexchar (nybble data 16).toNat, hexchar (nybble data 17).toNat,
  hexchar (nybble data 18).toNat, hexchar (nybble data 19).toNat,
  45,
  hexchar (nybble data 20).toNat, hexchar (nybble data 21).toNat,
  hexchar (nybble data 22).toNat, hexchar (nybble data 23).toNat,
  hexchar (nybble data 24).toNat, hexchar (nybble data 25).toNat,
  hexchar (nybble data 26).toNat, hexchar (nybble data 27).toNat,
  hexchar (nybble data 28).toNat, hexchar (nybble data 29).toNat,
  hexchar (nybble data 30).toNat, hexchar (nybble data 31).toNat]

def formatGuid (data : Guid) : Text := ![
  hexchar ((data.data1 >>> 28) &&& 0xF).toNat,
  hexchar ((data.data1 >>> 24) &&& 0xF).toNat,
  hexchar ((data.data1 >>> 20) &&& 0xF).toNat,
  hexchar ((data.data1 >>> 16) &&& 0xF).toNat,
  hexchar ((data.data1 >>> 12) &&& 0xF).toNat,
  hexchar ((data.data1 >>> 8) &&& 0xF).toNat,
  hexchar ((data.data1 >>> 4) &&& 0xF).toNat,
  hexchar (data.data1 &&& 0xF).toNat,
  45,
  hexchar ((data.data2 >>> 12) &&& 0xF).toNat,
  hexchar ((data.data2 >>> 8) &&& 0xF).toNat,
  hexchar ((data.data2 >>> 4) &&& 0xF).toNat,
  hexchar (data.data2 &&& 0xF).toNat,
  45,
  hexchar ((data.data3 >>> 12) &&& 0xF).toNat,
  hexchar ((data.data3 >>> 8) &&& 0xF).toNat,
  hexchar ((data.data3 >>> 4) &&& 0xF).toNat,
  hexchar (data.data3 &&& 0xF).toNat,
  45,
  hexchar ((data.data4 0 >>> 4) &&& 0xF).toNat,
  hexchar (data.data4 0 &&& 0xF).toNat,
  hexchar ((data.data4 1 >>> 4) &&& 0xF).toNat,
  hexchar (data.data4 1 &&& 0xF).toNat,
  45,
  hexchar ((data.data4 2 >>> 4) &&& 0xF).toNat,
  hexchar (data.data4 2 &&& 0xF).toNat,
  hexchar ((data.data4 3 >>> 4) &&& 0xF).toNat,
  hexchar (data.data4 3 &&& 0xF).toNat,
  hexchar ((data.data4 4 >>> 4) &&& 0xF).toNat,
  hexchar (data.data4 4 &&& 0xF).toNat,
  hexchar ((data.data4 5 >>> 4) &&& 0xF).toNat,
  hexchar (data.data4 5 &&& 0xF).toNat,
  hexchar ((data.data4 6 >>> 4) &&& 0xF).toNat,
  hexchar (data.data4 6 &&& 0xF).toNat,
  hexchar ((data.data4 7 >>> 4) &&& 0xF).toNat,
  hexchar (data.data4 7 &&& 0xF).toNat]

/-- The sixteen bytes of a GUID in the memory of a little-endian host. -/
def Guid.raw (g : Guid) : Uuid := ![
  g.data1.toUInt8, (g.data1 >>> 8).toUInt8, (g.data1 >>> 16).toUInt8, (g.data1 >>> 24).toUInt8,
  g.data2.toUInt8, (g.data2 >>> 8).toUInt8,
  g.data3.toUInt8, (g.data3 >>> 8).toUInt8,
  g.data4 0, g.data4 1, g.data4 2, g.data4 3, g.data4 4, g.data4 5, g.data4 6, g.data4 7]

/-- The bytes of a GUID in the order of the text. -/
def Guid.bytes (g : Guid) : Uuid := ![
  (g.data1 >>> 24).toUInt8, (g.data1 >>> 16).toUInt8, (g.data1 >>> 8).toUInt8, g.data1.toUInt8,
  (g.data2 >>> 8).toUInt8, g.data2.toUInt8,
  (g.data3 >>> 8).toUInt8, g.data3.toUInt8,
  g.data4 0, g.data4 1, g.data4 2, g.data4 3, g.data4 4, g.data4 5, g.data4 6, g.data4 7]

/-- A hexadecimal digit of either case. -/
def IsHex (c : UInt8) : Prop := (48 ≤ c ∧ c ≤ 57) ∨ (65 ≤ c ∧ c ≤ 70) ∨ (97 ≤ c ∧ c ≤ 102)

instance (c : UInt8) : Decidable (IsHex c) := inferInstanceAs (Decidable (_ ∨ _))

def lower (c : UInt8) : UInt8 := if 65 ≤ c ∧ c ≤ 90 then c + 32 else c

/-- Digits of either case with hyphens at columns 8, 13, 18 and 23. -/
def WellFormed (s : Text) : Prop :=
  ∀ c, if c = 8 ∨ c = 13 ∨ c = 18 ∨ c = 23 then s c = 45 else IsHex (s c)

instance (s : Text) : Decidable (WellFormed s) := inferInstanceAs (Decidable (∀ _, _))

/-- The value of a digit. -/
def value (c : UInt8) : ℕ := (hexval c).toNat

variable {a b c d e f g h : UInt8} {s : Text} {n : ℕ}

theorem IsHex.value_lt (hc : IsHex c) : value c < 16 := by
  have h : ∀ n : Fin 256, IsHex (UInt8.ofFin n) → value (UInt8.ofFin n) < 16 := by decide +kernel
  exact h c.toFin hc

/-- Printing the value of a digit gives the digit in lower case. -/
theorem IsHex.hexchar_value (hc : IsHex c) : hexchar (value c) = lower c := by
  have h : ∀ n : Fin 256, IsHex (UInt8.ofFin n) →
      hexchar (value (UInt8.ofFin n)) = lower (UInt8.ofFin n) := by decide +kernel
  exact h c.toFin hc

theorem isHex_hexchar (hn : n < 16) : IsHex (hexchar n) := by
  have h : ∀ n : Fin 16, IsHex (hexchar n) := by decide +kernel
  exact h ⟨n, hn⟩

@[simp] theorem value_hexchar (hn : n < 16) : value (hexchar n) = n := by
  have h : ∀ n : Fin 16, value (hexchar n) = n := by decide +kernel
  exact h ⟨n, hn⟩

end Redx.Xuid
