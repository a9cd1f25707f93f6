import Mathlib.Data.List.Basic

/-!
# Copying strings

`strlcpy` cuts what does not fit into the array, and returns the length that the string has
before the cut.
-/
namespace Redx.Strings

/-- A C string: its characters, none of them the NUL that ends it. -/
structure CString where
  chars : List UInt8
  noNul : 0 ∉ chars

def strlen (s : CString) : ℕ := s.chars.length

/-- What lies in memory at the string. -/
def CString.bytes (s : CString) : List UInt8 := s.chars ++ [0]

/-- `while (--n != 0) if ((*d++ = *s++) == '\0') break;`: the bytes stored at `d`, the value of
`n` and what `s` points to afterwards. It is entered with `n` other than 0. -/
def copyLoop : ℕ → List UInt8 → List UInt8 × ℕ × List UInt8
  | n + 2, c :: s =>
    if c = 0 then ([0], n + 1, s)
    else
      let rest := copyLoop (n + 1) s
      (c :: rest.1, rest.2)
  | n, s => ([], n - 1, s)

/-- `while (*s++);` -/
def skipLoop : List UInt8 → List UInt8
  | c :: s => if c = 0 then s else skipLoop s
  | [] => []

/-- The bytes that a call stores from `dst` on, and what it returns. -/
structure Copy where
  stored : List UInt8
  result : ℕ
  deriving DecidableEq, Repr

/-- `src` is the memory from the source string on. -/
def strlcpy (src : List UInt8) (siz : ℕ) : Copy :=
  let copy := if siz ≠ 0 then copyLoop siz src else ([], 0, src)
  if copy.2.1 = 0 then
    ⟨if siz ≠ 0 then copy.1 ++ [0] else copy.1, src.length - (skipLoop copy.2.2).length - 1⟩
  else ⟨copy.1, src.length - copy.2.2.length - 1⟩

variable {chars : List UInt8}

theorem skipLoop_chars (h : 0 ∉ chars) (rest : List UInt8) :
    skipLoop (chars ++ 0 :: rest) = rest := by
  induction chars with
  | nil => rfl
  | cons c chars ih =>
    have hc : c ≠ 0 := fun hc => h (hc ▸ List.mem_cons_self)
    rw [List.cons_append, skipLoop, if_neg hc]
    exact ih fun hmem => h (List.mem_cons_of_mem c hmem)

/-- The array is longer than the string: the loop ends with the NUL. -/
theorem copyLoop_fits (h : 0 ∉ chars) (rest : List UInt8) {n : ℕ} (hn : chars.length + 1 < n) :
    copyLoop n (chars ++ 0 :: rest) = (chars ++ [0], n - 1 - chars.length, rest) := by
  induction chars generalizing n with
  | nil =>
    obtain ⟨n, rfl⟩ := Nat.exists_eq_add_of_le' (show 2 ≤ n from hn)
    rfl
  | cons c chars ih =>
    have hc : c ≠ 0 := fun hc => h (hc ▸ List.mem_cons_self)
    rw [List.length_cons] at hn
    obtain ⟨n, rfl⟩ := Nat.exists_eq_add_of_le' (show 2 ≤ n by omega)
    have hleft : n + 1 - 1 - chars.length = n + 2 - 1 - (c :: chars).length := by
      rw [List.length_cons]
      omega
    rw [List.cons_append, copyLoop, if_neg hc,
      ih (fun hmem => h (List.mem_cons_of_mem c hmem)) (by omega), hleft]
    rfl

/-- The array is not longer than the string: the loop fills it but for the last byte. -/
theorem copyLoop_full (h : 0 ∉ chars) (rest : List UInt8) {n : ℕ} (hpos : 0 < n)
    (hn : n ≤ chars.length + 1) :
    copyLoop n (chars ++ 0 :: rest) = (chars.take (n - 1), 0, chars.drop (n - 1) ++ 0 :: rest) := by
  induction chars generalizing n with
  | nil =>
    obtain rfl : n = 1 := Nat.le_antisymm hn hpos
    rfl
  | cons c chars ih =>
    have hc : c ≠ 0 := fun hc => h (hc ▸ List.mem_cons_self)
    rw [List.length_cons] at hn
    by_cases hone : n = 1
    · subst hone
      rfl
    · obtain ⟨n, rfl⟩ := Nat.exists_eq_add_of_le' (show 2 ≤ n by omega)
      rw [List.cons_append, copyLoop, if_neg hc,
        ih (fun hmem => h (List.mem_cons_of_mem c hmem)) (by omega) (by omega)]
      rfl

/-- What `strlcpy` stores and returns, for a string and an array of any lengths. -/
theorem strlcpy_eq (s : CString) (rest : List UInt8) (siz : ℕ) :
    strlcpy (s.chars ++ 0 :: rest) siz =
      ⟨if siz = 0 then [] else s.chars.take (siz - 1) ++ [0], strlen s⟩ := by
  have hskip : ∀ k, skipLoop (s.chars.drop k ++ 0 :: rest) = rest := fun k =>
    skipLoop_chars (fun h => s.noNul (List.mem_of_mem_drop h)) rest
  have hlen : s.chars.length + (rest.length + 1) - rest.length - 1 = strlen s := by
    unfold strlen
    omega
  by_cases hsiz : siz = 0
  · subst hsiz
    have h := hskip 0
    rw [List.drop_zero] at h
    simp [strlcpy, h, hlen]
  · by_cases hfit : strlen s + 1 < siz
    · have hloop := copyLoop_fits s.noNul rest hfit
      have hn : siz - 1 - s.chars.length ≠ 0 := by
        unfold strlen at hfit
        omega
      have htake : s.chars.take (siz - 1) = s.chars := List.take_of_length_le (by
        unfold strlen at hfit
        omega)
      simp [strlcpy, hsiz, hloop, hn, hlen, htake]
    · have hloop := copyLoop_full s.noNul rest (Nat.pos_of_ne_zero hsiz) (Nat.not_lt.mp hfit)
      simp [strlcpy, hsiz, hloop, hskip, hlen]

end Redx.Strings
