import Mathlib.Data.Fintype.Pi
import Mathlib.Tactic.SplitIfs
import Mathlib.Data.List.FinRange
import Mathlib.Data.Fin.VecNotation
import Mathlib.Tactic.FinCases

/-!
# UUIDs and their text

Sixteen bytes and the text they were last formatted as. The thirty-two digits stand at fixed
columns of the text, with hyphens between them; parsing looks at the digits' columns only.
-/
namespace Redx.Monitor

structure UUID where
  data : Fin 16 → UInt8
  string : Fin 37 → UInt8
  deriving DecidableEq

namespace UUID

/-- The column of a nybble in the text. -/
def column (n : Fin 32) : Fin 37 :=
  ⟨n + (if 8 ≤ n.val then 1 else 0) + (if 12 ≤ n.val then 1 else 0) +
    (if 16 ≤ n.val then 1 else 0) + (if 20 ≤ n.val then 1 else 0), by split_ifs <;> omega⟩

/-- The digit, lower case. -/
def hex (n : UInt8) : UInt8 := if n < 10 then n + 48 else n + 87

/-- The digit's value. The table holds -1 elsewhere, of which the low eight bits matter. -/
def hexval (c : UInt8) : UInt8 :=
  let c := c &&& 0x7F
  if 48 ≤ c ∧ c ≤ 57 then c - 48
  else if 65 ≤ c ∧ c ≤ 70 then c - 55
  else if 97 ≤ c ∧ c ≤ 102 then c - 87
  else 0xFF

def parse (string : Fin 37 → UInt8) : Fin 16 → UInt8 := fun i =>
  (hexval (string (column ⟨2 * i, by omega⟩)) <<< 4) +
    hexval (string (column ⟨2 * i + 1, by omega⟩))

def nybble (data : Fin 16 → UInt8) (n : Fin 32) : UInt8 :=
  let byte := data ⟨n / 2, by omega⟩
  if n.val % 2 = 1 then byte &&& 0xF else (byte >>> 4) &&& 0xF

def format (data : Fin 16 → UInt8) : Fin 37 → UInt8 := fun c =>
  match (List.finRange 32).find? fun n => column n = c with
  | some n => hex (nybble data n)
  | none => if c = 36 then 0 else 45

/-- `UUID::set(uint8_t *)`. -/
def ofData (data : Fin 16 → UInt8) : UUID := ⟨data, format data⟩

/-- `UUID::set(char *)`: thirty-seven bytes are copied, whatever the text's length. -/
def ofString (input : Fin 37 → UInt8) : UUID :=
  let data := parse (Function.update input 36 0)
  ⟨data, format data⟩

/-- `operator ==`. -/
def Equal (a b : UUID) : Prop := a.data = b.data

instance (a b : UUID) : Decidable (a.Equal b) := by unfold Equal; infer_instance

/-- `to_s()` as a C string. -/
def text (u : UUID) : List UInt8 := (List.ofFn u.string).takeWhile (· ≠ 0)

theorem column_find (n : Fin 32) :
    (List.finRange 32).find? (fun m => column m = column n) = some n := by
  revert n
  decide

theorem nybbles (b : UInt8) :
    (hexval (hex ((b >>> 4) &&& 0xF)) <<< 4) + hexval (hex (b &&& 0xF)) = b := by
  have h : ∀ n : Fin 256, (hexval (hex ((UInt8.ofFin n >>> 4) &&& 0xF)) <<< 4) +
      hexval (hex (UInt8.ofFin n &&& 0xF)) = UInt8.ofFin n := by decide +kernel
  exact h b.toFin

/-- Parsing gives back the bytes that were formatted. -/
theorem parse_format (data : Fin 16 → UInt8) : parse (format data) = data := by
  funext i
  have hodd : (2 * i.val + 1) / 2 = i.val := by omega
  have heven : 2 * i.val / 2 = i.val := by omega
  rw [parse, format, format, column_find, column_find]
  simp only [nybble, hodd, heven, Nat.mul_mod_right, Nat.mul_add_mod]
  exact nybbles (data i)

/-- The columns of `UUID::format`, as they stand there. -/
theorem format_literal (data : Fin 16 → UInt8) : format data = ![
    hex (nybble data 0), hex (nybble data 1), hex (nybble data 2), hex (nybble data 3),
    hex (nybble data 4), hex (nybble data 5), hex (nybble data 6), hex (nybble data 7), 45,
    hex (nybble data 8), hex (nybble data 9), hex (nybble data 10), hex (nybble data 11), 45,
    hex (nybble data 12), hex (nybble data 13), hex (nybble data 14), hex (nybble data 15), 45,
    hex (nybble data 16), hex (nybble data 17), hex (nybble data 18), hex (nybble data 19), 45,
    hex (nybble data 20), hex (nybble data 21), hex (nybble data 22), hex (nybble data 23),
    hex (nybble data 24), hex (nybble data 25), hex (nybble data 26), hex (nybble data 27),
    hex (nybble data 28), hex (nybble data 29), hex (nybble data 30), hex (nybble data 31), 0] := by
  funext c
  fin_cases c <;> rfl

/-- Every constructor and `set` ends in `format()`. -/
def Formatted (u : UUID) : Prop := u.string = format u.data

theorem ofData_formatted (data : Fin 16 → UInt8) : (ofData data).Formatted := rfl

theorem ofString_formatted (input : Fin 37 → UInt8) : (ofString input).Formatted := rfl

theorem nybble_lt (data : Fin 16 → UInt8) (n : Fin 32) : (nybble data n).toNat < 16 := by
  have h : ∀ b : Fin 256, (UInt8.ofFin b &&& 0xF).toNat < 16 := by decide +kernel
  unfold nybble
  dsimp only
  split
  · exact h (data _).toFin
  · exact h ((data _) >>> 4).toFin

theorem format_castSucc (data : Fin 16 → UInt8) (c : Fin 36) :
    format data c.castSucc = 45 ∨ ∃ n : Fin 16, format data c.castSucc = hex (UInt8.ofNat n) := by
  have hc : c.castSucc ≠ 36 := Fin.castSucc_ne_last c
  rw [format]
  split
  · rename_i n _
    exact .inr ⟨⟨(nybble data n).toNat, nybble_lt data n⟩, by rw [UInt8.ofNat_toNat]⟩
  · rw [if_neg hc]
    exact .inl rfl

/-- What holds for the hyphen and for the digits holds for the characters of the text. -/
theorem format_forall {P : UInt8 → Prop} (hhyphen : P 45)
    (hhex : ∀ n : Fin 16, P (hex (UInt8.ofNat n))) (data : Fin 16 → UInt8) (c : Fin 36) :
    P (format data c.castSucc) := by
  rcases format_castSucc data c with h | ⟨n, h⟩
  · rw [h]
    exact hhyphen
  · rw [h]
    exact hhex n

theorem format_ne_zero (data : Fin 16 → UInt8) (c : Fin 36) : format data c.castSucc ≠ 0 :=
  format_forall (P := (· ≠ 0)) (by decide) (by decide +kernel) data c

theorem format_last (data : Fin 16 → UInt8) : format data (Fin.last 36) = 0 := by
  have h : (List.finRange 32).find? (fun n => column n = Fin.last 36) = none := by decide
  rw [format, h]
  rfl

/-- The text of a formatted UUID: its first thirty-six bytes. -/
theorem Formatted.text {u : UUID} (h : u.Formatted) :
    u.text = List.ofFn fun c : Fin 36 => format u.data c.castSucc := by
  rw [UUID.text, h, List.ofFn_succ_last, format_last, List.takeWhile_append_of_pos]
  · simp
  · intro c hc
    obtain ⟨i, rfl⟩ := List.mem_ofFn.mp hc
    simpa using format_ne_zero u.data i

end UUID

end Redx.Monitor
