import Redx.Strings.Copy
import Mathlib.Data.List.TakeWhile

/-!
# Appending strings

`strlcat` appends to the string in an array what fits there. A string that is put together with one
`strlcpy` and any number of calls of `strlcat` is the one that a single `strlcpy` would leave.
-/
namespace Redx.Strings

/-- `while (n-- != 0 && *d != '\0') d++;`: how far `d` gets. -/
def endLoop : ℕ → List UInt8 → ℕ
  | n + 1, c :: d => if c = 0 then 0 else endLoop n d + 1
  | _, _ => 0

/-- The loop over the source: the bytes stored at `d`. -/
def appendLoop : ℕ → List UInt8 → List UInt8
  | n, c :: s =>
    if c = 0 then []
    else if n ≠ 1 then c :: appendLoop (n - 1) s
    else appendLoop n s
  | _, [] => []

/-- The bytes that a call stores, where in the array, and what it returns. -/
structure Append extends Copy where
  offset : ℕ
  deriving DecidableEq, Repr

/-- `dst` is the memory from the array on. -/
def strlcat (dst : List UInt8) (src : CString) (siz : ℕ) : Append :=
  let dlen := endLoop siz dst
  let n := siz - dlen
  if n = 0 then ⟨⟨[], dlen + strlen src⟩, dlen⟩
  else ⟨⟨appendLoop n src.bytes ++ [0], dlen + strlen src⟩, dlen⟩

/-- The array with some bytes stored from an offset on. -/
def storeAt (cells : List UInt8) (offset : ℕ) (stored : List UInt8) : List UInt8 :=
  cells.take offset ++ stored ++ cells.drop (offset + stored.length)

/-- The string in an array. -/
def textOf (cells : List UInt8) : List UInt8 := cells.takeWhile (· ≠ 0)

/-- The calls of `strlcat` for some strings, in an array of a size: the array, and what the calls
return. -/
def appendAll (siz : ℕ) : List UInt8 → List CString → List UInt8 × List ℕ
  | cells, [] => (cells, [])
  | cells, src :: srcs =>
    let call := strlcat cells src siz
    let rest := appendAll siz (storeAt cells call.offset call.stored) srcs
    (rest.1, call.result :: rest.2)

/-- A first string is copied to the array, and the others are appended. -/
def assemble (cells : List UInt8) (src : CString) (srcs : List CString) : List UInt8 × List ℕ :=
  let call := strlcpy src.bytes cells.length
  let rest := appendAll cells.length (storeAt cells 0 call.stored) srcs
  (rest.1, call.result :: rest.2)

variable {chars rest cells : List UInt8} {siz n : ℕ}

theorem endLoop_chars (h : 0 ∉ chars) (hn : chars.length < n) :
    endLoop n (chars ++ 0 :: rest) = chars.length := by
  induction chars generalizing n with
  | nil =>
    obtain ⟨n, rfl⟩ := Nat.exists_eq_succ_of_ne_zero (Nat.ne_zero_of_lt hn)
    rfl
  | cons c chars ih =>
    obtain ⟨n, rfl⟩ := Nat.exists_eq_succ_of_ne_zero (Nat.ne_zero_of_lt hn)
    have hc : c ≠ 0 := fun hc => h (hc ▸ List.mem_cons_self)
    rw [List.cons_append, endLoop, if_neg hc,
      ih (fun hmem => h (List.mem_cons_of_mem c hmem)) (Nat.lt_of_succ_lt_succ hn)]
    rfl

theorem appendLoop_one (h : 0 ∉ chars) : appendLoop 1 (chars ++ [0]) = [] := by
  induction chars with
  | nil => rfl
  | cons c chars ih =>
    have hc : c ≠ 0 := fun hc => h (hc ▸ List.mem_cons_self)
    rw [List.cons_append, appendLoop, if_neg hc, if_neg (not_not.mpr rfl)]
    exact ih fun hmem => h (List.mem_cons_of_mem c hmem)

/-- What fits in front of the NUL is stored. -/
theorem appendLoop_chars (h : 0 ∉ chars) (n : ℕ) :
    appendLoop (n + 1) (chars ++ [0]) = chars.take n := by
  induction chars generalizing n with
  | nil => simp [appendLoop]
  | cons c chars ih =>
    have hc : c ≠ 0 := fun hc => h (hc ▸ List.mem_cons_self)
    have htail : 0 ∉ chars := fun hmem => h (List.mem_cons_of_mem c hmem)
    rw [List.cons_append, appendLoop, if_neg hc]
    cases n with
    | zero => exact appendLoop_one htail
    | succ n =>
      rw [if_pos (by omega), Nat.add_sub_cancel, ih htail]
      rfl

/-- The array holds a string, with its NUL. -/
def HoldsText (cells chars : List UInt8) : Prop :=
  0 ∉ chars ∧ ∃ rest, cells = chars ++ 0 :: rest

theorem HoldsText.textOf (h : HoldsText cells chars) : textOf cells = chars := by
  obtain ⟨hnul, rest, rfl⟩ := h
  have hpos : ∀ c ∈ chars, decide (c ≠ 0) = true := fun c hc =>
    decide_eq_true fun hzero => hnul (hzero ▸ hc)
  rw [Strings.textOf, List.takeWhile_append_of_pos hpos, List.takeWhile_cons_of_neg (by decide),
    List.append_nil]

theorem HoldsText.length (h : HoldsText cells chars) : chars.length < cells.length := by
  obtain ⟨-, rest, rfl⟩ := h
  rw [List.length_append, List.length_cons]
  omega

/-- A string in front of which the array stays as it is. -/
theorem storeAt_text {before stored : List UInt8} (hbefore : before = cells.take before.length)
    (hnul : 0 ∉ before ++ stored) (hfits : before.length + stored.length < cells.length) :
    HoldsText (storeAt cells before.length (stored ++ [0])) (before ++ stored) ∧
      (storeAt cells before.length (stored ++ [0])).length = cells.length := by
  refine ⟨⟨hnul, cells.drop (before.length + (stored ++ [0]).length), ?_⟩, ?_⟩
  · rw [storeAt, ← hbefore]
    simp
  · simp only [storeAt, List.length_append, List.length_take, List.length_drop,
      List.length_singleton]
    omega

theorem HoldsText.take (h : HoldsText cells chars) : chars = cells.take chars.length := by
  obtain ⟨-, rest, rfl⟩ := h
  exact List.take_left.symm

/-- What a call of `strlcat` does to an array that holds a string. -/
theorem strlcat_eq (hsiz : cells.length = siz) (h : HoldsText cells chars) (src : CString) :
    strlcat cells src siz =
      ⟨⟨src.chars.take (siz - 1 - chars.length) ++ [0], chars.length + strlen src⟩,
        chars.length⟩ := by
  have hlen := h.length
  rw [hsiz] at hlen
  have hdlen : endLoop siz cells = chars.length := by
    obtain ⟨hnul, rest, rfl⟩ := h
    exact endLoop_chars hnul hlen
  have hroom : siz - chars.length = siz - 1 - chars.length + 1 := by
    omega
  rw [strlcat, hdlen, hroom, if_neg (Nat.succ_ne_zero _), CString.bytes,
    appendLoop_chars src.noNul]

/-- The array holds the beginning of a string; then it holds what fits of the string with another
one behind. -/
theorem HoldsText.append {acc more : List UInt8} (hsiz : cells.length = siz) (hacc : 0 ∉ acc)
    (hmore : 0 ∉ more) (h : HoldsText cells (acc.take (siz - 1))) :
    HoldsText (storeAt cells (acc.take (siz - 1)).length
        (more.take (siz - 1 - (acc.take (siz - 1)).length) ++ [0]))
        ((acc ++ more).take (siz - 1)) ∧
      (storeAt cells (acc.take (siz - 1)).length
        (more.take (siz - 1 - (acc.take (siz - 1)).length) ++ [0])).length = siz := by
  have hlen := h.length
  have hmin : (acc.take (siz - 1)).length = min (siz - 1) acc.length := List.length_take
  have hroom : siz - 1 - (acc.take (siz - 1)).length = siz - 1 - acc.length := by
    omega
  have hnul : 0 ∉ acc.take (siz - 1) ++ more.take (siz - 1 - acc.length) :=
    fun hmem => (List.mem_append.mp hmem).elim (fun hmem => hacc (List.mem_of_mem_take hmem))
      fun hmem => hmore (List.mem_of_mem_take hmem)
  have hfits : (acc.take (siz - 1)).length + (more.take (siz - 1 - acc.length)).length <
      cells.length := by
    rw [hmin, List.length_take]
    omega
  rw [hroom, List.take_append, ← hsiz]
  exact hsiz ▸ storeAt_text h.take hnul hfits

theorem appendAll_holds {acc : List UInt8} (srcs : List CString) (hsiz : cells.length = siz)
    (hacc : 0 ∉ acc) (h : HoldsText cells (acc.take (siz - 1))) :
    HoldsText (appendAll siz cells srcs).1
        ((acc ++ srcs.flatMap CString.chars).take (siz - 1)) ∧
      (appendAll siz cells srcs).1.length = siz ∧
      (siz ≤ acc.length ∨ (∃ r ∈ (appendAll siz cells srcs).2, siz ≤ r) ↔
        siz ≤ (acc ++ srcs.flatMap CString.chars).length) := by
  induction srcs generalizing cells acc with
  | nil => simpa [appendAll] using ⟨h, hsiz⟩
  | cons src srcs ih =>
    have hcells := h.length
    have hmin : (acc.take (siz - 1)).length = min (siz - 1) acc.length := List.length_take
    have hresult : siz ≤ acc.length ∨ siz ≤ (acc.take (siz - 1)).length + strlen src ↔
        siz ≤ (acc ++ src.chars).length := by
      rw [List.length_append, hmin]
      unfold strlen
      omega
    have hnul : 0 ∉ acc ++ src.chars := fun hmem =>
      (List.mem_append.mp hmem).elim hacc src.noNul
    obtain ⟨hholds, hlen⟩ := h.append hsiz hacc src.noNul
    have hrest := ih hlen hnul hholds
    rw [appendAll, strlcat_eq hsiz h, List.flatMap_cons, ← List.append_assoc, ← hrest.2.2,
      ← hresult, or_assoc]
    dsimp only
    refine ⟨hrest.1, hrest.2.1, or_congr_right ?_⟩
    simp only [List.mem_cons, exists_eq_or_imp]

theorem appendAll_nil (srcs : List CString) : (appendAll 0 [] srcs).1 = [] := by
  induction srcs with
  | nil => rfl
  | cons src srcs ih => exact ih

/-- Pieces that are copied and appended leave the string that a copy of the whole would leave, all
within the array, and some call returns its size or more if and only if the whole does not fit. -/
theorem assemble_text (cells : List UInt8) (src : CString) (srcs : List CString) :
    textOf (assemble cells src srcs).1 =
        ((src :: srcs).flatMap CString.chars).take (cells.length - 1) ∧
      (assemble cells src srcs).1.length = cells.length ∧
      ((∃ r ∈ (assemble cells src srcs).2, cells.length ≤ r) ↔
        cells.length ≤ ((src :: srcs).flatMap CString.chars).length) := by
  have hcopy : strlcpy src.bytes cells.length = _ := strlcpy_eq src [] cells.length
  rw [assemble, hcopy, List.flatMap_cons]
  by_cases hzero : cells.length = 0
  · obtain rfl := List.eq_nil_of_length_eq_zero hzero
    refine ⟨congrArg textOf (appendAll_nil srcs), congrArg List.length (appendAll_nil srcs),
      iff_of_true ?_ (Nat.zero_le _)⟩
    exact ⟨_, List.mem_cons_self, Nat.zero_le _⟩
  · rw [if_neg hzero]
    have hnul : 0 ∉ [] ++ src.chars.take (cells.length - 1) := fun hmem =>
      src.noNul (List.mem_of_mem_take hmem)
    have hfits : ([] : List UInt8).length + (src.chars.take (cells.length - 1)).length <
        cells.length := by
      rw [List.length_nil, List.length_take]
      omega
    obtain ⟨hholds, hlen⟩ := storeAt_text List.take_zero.symm hnul hfits
    obtain ⟨htext, hlength, hresults⟩ := appendAll_holds srcs hlen src.noNul hholds
    rw [← hresults]
    dsimp only
    refine ⟨htext.textOf, hlength, ?_⟩
    simp only [List.mem_cons, exists_eq_or_imp]
    exact Iff.rfl

end Redx.Strings
