import Mathlib.Algebra.Group.Int.Defs
import Mathlib.Algebra.Group.Nat.Defs
import Mathlib.Data.Int.Notation
import Mathlib.Data.List.Basic

/-!
# Decimal numbers in text

What `%d` prints for a number that is not negative, and what it reads: white space, a sign, and as
many digits as there are, of which there must be one.
-/
namespace Redx.Library

def isDigit (c : UInt8) : Bool := 48 ≤ c && c ≤ 57

/-- White space. -/
def isBlank (c : UInt8) : Bool := c = 32 || (9 ≤ c && c ≤ 13)

/-- The digits of a number, most significant first. -/
def decimal (n : ℕ) : List UInt8 :=
  if n < 10 then [UInt8.ofNat (48 + n)] else decimal (n / 10) ++ [UInt8.ofNat (48 + n % 10)]

/-- What `%d` and `%ld` print. -/
def signedDecimal (x : ℤ) : List UInt8 :=
  if x < 0 then 45 :: decimal x.natAbs else decimal x.natAbs

/-- The number that digits stand for. -/
def ofDecimal (digits : List UInt8) : ℕ := digits.foldl (fun n c => 10 * n + (c.toNat - 48)) 0

/-- The digits of `%d`, after its sign. -/
def scanDigits (negative : Bool) (s : List UInt8) : Option (ℤ × List UInt8) :=
  let digits := s.takeWhile isDigit
  if digits = [] then none
  else some (if negative then -(ofDecimal digits : ℤ) else ofDecimal digits, s.dropWhile isDigit)

/-- `%d`: the number read and the text after it. -/
def scanInt (s : List UInt8) : Option (ℤ × List UInt8) :=
  match s.dropWhile isBlank with
  | 43 :: s => scanDigits false s
  | 45 :: s => scanDigits true s
  | s => scanDigits false s

/-- Characters of a format that stand for themselves. -/
def scanLiteral (literal s : List UInt8) : Option (List UInt8) :=
  if literal.isPrefixOf s then some (s.drop literal.length) else none

variable {n : ℕ} {rest : List UInt8}

theorem toNat_digit {d : ℕ} (hd : d < 10) : (UInt8.ofNat (48 + d)).toNat = 48 + d := by
  rw [UInt8.toNat_ofNat']
  omega

theorem isDigit_digit {d : ℕ} (hd : d < 10) : isDigit (UInt8.ofNat (48 + d)) = true := by
  have h : ∀ d : Fin 10, isDigit (UInt8.ofNat (48 + d)) = true := by decide
  exact h ⟨d, hd⟩

theorem isDigit_of_mem_decimal {c : UInt8} (h : c ∈ decimal n) : isDigit c = true := by
  induction n using Nat.strongRecOn with
  | ind n ih =>
    rw [decimal] at h
    split_ifs at h with hn
    · rw [List.mem_singleton.mp h]
      exact isDigit_digit hn
    · rcases List.mem_append.mp h with h | h
      · exact ih (n / 10) (by omega) h
      · rw [List.mem_singleton.mp h]
        exact isDigit_digit (Nat.mod_lt _ (by decide))

theorem decimal_ne_nil : decimal n ≠ [] := by
  rw [decimal]
  split_ifs <;> simp

theorem ofDecimal_decimal (n : ℕ) : ofDecimal (decimal n) = n := by
  induction n using Nat.strongRecOn with
  | ind n ih =>
    rw [decimal]
    split_ifs with hn
    · rw [ofDecimal, List.foldl_cons, List.foldl_nil, toNat_digit hn]
      omega
    · have hfront := ih (n / 10) (by omega)
      rw [ofDecimal] at hfront ⊢
      rw [List.foldl_append, hfront, List.foldl_cons, List.foldl_nil,
        toNat_digit (Nat.mod_lt _ (by decide))]
      omega

theorem decimal_inj {m n : ℕ} : decimal m = decimal n ↔ m = n := by
  refine ⟨fun h => ?_, fun h => h ▸ rfl⟩
  rw [← ofDecimal_decimal m, h, ofDecimal_decimal]

theorem length_decimal_le {k : ℕ} (hn : n < 10 ^ (k + 1)) : (decimal n).length ≤ k + 1 := by
  induction k generalizing n with
  | zero =>
    rw [decimal, if_pos (by simpa using hn)]
    exact Nat.le_refl 1
  | succ k ih =>
    rw [decimal]
    split_ifs with h
    · exact Nat.le_add_left _ _
    · rw [List.length_append, List.length_singleton]
      exact Nat.succ_le_succ (ih (Nat.div_lt_of_lt_mul (by rwa [Nat.pow_succ'] at hn)))

theorem length_signedDecimal_le {k : ℕ} {x : ℤ} (hlow : -10 ^ (k + 1) < x)
    (hx : x < 10 ^ (k + 1)) : (signedDecimal x).length ≤ k + 2 := by
  have hle : (decimal x.natAbs).length ≤ k + 1 := by
    refine length_decimal_le ?_
    have hpow : ((10 ^ (k + 1) : ℕ) : ℤ) = 10 ^ (k + 1) := Int.natCast_pow 10 (k + 1)
    omega
  rw [signedDecimal]
  split_ifs
  · exact Nat.succ_le_succ hle
  · omega

/-- Reading a number stops behind its digits. -/
theorem scanDigits_decimal (hrest : ∀ c ∈ rest.head?, isDigit c = false) :
    scanDigits false (decimal n ++ rest) = some ((n : ℤ), rest) := by
  have hall : ∀ c ∈ decimal n, isDigit c = true := fun c hc => isDigit_of_mem_decimal hc
  have htake : (decimal n ++ rest).takeWhile isDigit = decimal n := by
    rw [List.takeWhile_append_of_pos hall]
    cases rest with
    | nil => simp
    | cons c rest => simp [hrest c rfl]
  have hdrop : (decimal n ++ rest).dropWhile isDigit = rest := by
    rw [List.dropWhile_append_of_pos hall]
    cases rest with
    | nil => rfl
    | cons c rest => simp [hrest c rfl]
  rw [scanDigits, htake, hdrop, if_neg decimal_ne_nil, ofDecimal_decimal]
  rfl

/-- A text that starts with a digit starts with no blank and no sign. -/
theorem scanInt_of_digit {c : UInt8} (hc : isDigit c = true) (s : List UInt8) :
    scanInt (c :: s) = scanDigits false (c :: s) := by
  have hblank : isBlank c = false ∧ c ≠ 43 ∧ c ≠ 45 := by
    have h : ∀ c : Fin 256, isDigit (UInt8.ofFin c) = true →
        isBlank (UInt8.ofFin c) = false ∧ UInt8.ofFin c ≠ 43 ∧ UInt8.ofFin c ≠ 45 := by
      decide +kernel
    exact h c.toFin hc
  rw [scanInt, List.dropWhile_cons_of_neg (by simp [hblank.1])]
  split
  · rename_i heq
    exact absurd (List.cons.inj heq).1 hblank.2.1
  · rename_i heq
    exact absurd (List.cons.inj heq).1 hblank.2.2
  · rfl

/-- `%d` reads back what `%d` printed. -/
theorem scanInt_decimal (hrest : ∀ c ∈ rest.head?, isDigit c = false) :
    scanInt (decimal n ++ rest) = some ((n : ℤ), rest) := by
  rw [← scanDigits_decimal hrest]
  cases h : decimal n with
  | nil => exact absurd h decimal_ne_nil
  | cons c s => exact scanInt_of_digit (isDigit_of_mem_decimal (h ▸ List.mem_cons_self)) _

theorem scanInt_decimal_nil (n : ℕ) : scanInt (decimal n) = some ((n : ℤ), []) := by
  have h : scanInt (decimal n ++ []) = some ((n : ℤ), []) := scanInt_decimal nofun
  rwa [List.append_nil] at h

end Redx.Library
