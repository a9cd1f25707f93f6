import Mathlib.Data.List.Basic

/-!
# Records written in pieces

Of each record a write may take only some elements. When the rest of the file is padding, and no
record is padding alone, the file is the right one only if every record but the last is complete:
nothing makes up for what is missing in front of a record.
-/
namespace Redx.Library

variable {α : Type*}

/-- The elements that are written when the write of the `i`-th record takes `written i` of it. -/
def pieces : List (List α) → (ℕ → ℕ) → List α
  | [], _ => []
  | record :: records, written =>
    record.take (written 0) ++ pieces records fun i => written (i + 1)

/-- Every record is written whole, but for padding at the end of the last one. -/
def WrittenOut (z : α) (records : List (List α)) (written : ℕ → ℕ) : Prop :=
  ∀ i (h : i < records.length), records[i].length ≤ written i ∨
    i + 1 = records.length ∧ ∀ x ∈ records[i].drop (written i), x = z

/-- Where the write of the `i`-th record begins. -/
def offset (records : List (List α)) (written : ℕ → ℕ) (i : ℕ) : ℕ :=
  (pieces (records.take i) written).length

/-- Every write finds what it writes there already, and behind them is padding up to a size. -/
structure Retains (z : α) (size : ℕ) (records : List (List α)) (written : ℕ → ℕ)
    (file : List α) : Prop where
  found : ∀ i (h : i < records.length),
    records[i].take (written i) <+: file.drop (offset records written i)
  padded : file.drop (offset records written records.length) =
    List.replicate (size - offset records written records.length) z

variable {z : α} {record : List α} {records : List (List α)} {written : ℕ → ℕ} {m n : ℕ}

theorem pieces_sublist (records : List (List α)) (written : ℕ → ℕ) :
    (pieces records written).Sublist records.flatten := by
  induction records generalizing written with
  | nil => exact .slnil
  | cons record records ih =>
    rw [pieces, List.flatten_cons]
    exact (List.take_sublist _ _).append (ih _)

theorem writtenOut_cons : WrittenOut z (record :: records) written ↔
    (record.length ≤ written 0 ∨ records = [] ∧ ∀ x ∈ record.drop (written 0), x = z) ∧
      WrittenOut z records fun i => written (i + 1) := by
  constructor
  · intro h
    refine ⟨?_, fun i hi => ?_⟩
    · have h₀ := h 0 (Nat.succ_pos _)
      simpa [List.length_eq_zero_iff, eq_comm] using h₀
    · have hi' := h (i + 1) (Nat.succ_lt_succ hi)
      simpa using hi'
  · rintro ⟨h₀, h⟩ i hi
    cases i with
    | zero => simpa [List.length_eq_zero_iff, eq_comm] using h₀
    | succ i => simpa using h i (Nat.lt_of_succ_lt_succ hi)

@[simp] theorem offset_length :
    offset records written records.length = (pieces records written).length := by
  rw [offset, List.take_length]

theorem offset_cons_succ (i : ℕ) : offset (record :: records) written (i + 1) =
    (record.take (written 0)).length + offset records (fun i => written (i + 1)) i := by
  rw [offset, List.take_succ_cons, pieces, List.length_append, offset]

/-- The pieces stand in front exactly when each stands where its write begins. -/
theorem pieces_prefix_iff {file : List α} : pieces records written <+: file ↔
    ∀ i (h : i < records.length),
      records[i].take (written i) <+: file.drop (offset records written i) := by
  induction records generalizing written file with
  | nil => exact iff_of_true List.nil_prefix nofun
  | cons record records ih =>
    rw [pieces]
    constructor
    · rintro ⟨rest, rfl⟩ i h
      rw [List.append_assoc]
      cases i with
      | zero => exact List.prefix_append _ _
      | succ i =>
        rw [offset_cons_succ, List.drop_length_add_append]
        have hfront := List.prefix_append (pieces records fun i => written (i + 1)) rest
        exact ih.mp hfront i (Nat.lt_of_succ_lt_succ h)
    · intro h
      obtain ⟨file, rfl⟩ := h 0 (Nat.succ_pos _)
      refine (List.prefix_append_right_inj _).mpr (ih.mpr fun i hi => ?_)
      have hi' := h (i + 1) (Nat.succ_lt_succ hi)
      rwa [offset_cons_succ, List.getElem_cons_zero, List.drop_length_add_append] at hi'

/-- The file is what the writes make of padding exactly when they find it so. -/
theorem eq_pieces_iff {file : List α} {size : ℕ} :
    file = pieces records written ++ List.replicate (size - (pieces records written).length) z ↔
      Retains z size records written file := by
  constructor
  · rintro rfl
    refine ⟨pieces_prefix_iff.mp (List.prefix_append _ _), ?_⟩
    rw [offset_length, List.drop_left]
  · rintro ⟨hfound, hpadded⟩
    rw [offset_length] at hpadded
    rw [← hpadded]
    exact (List.prefix_iff_eq_append.mp (pieces_prefix_iff.mpr hfound)).symm

/-- A sublist with all the elements of a kind comes to the first of them no later. -/
theorem findIdx_le_of_sublist {p : α → Bool} {xs ys : List α} (h : xs.Sublist ys)
    (hcount : xs.countP p = ys.countP p) : xs.findIdx p ≤ ys.findIdx p := by
  induction h with
  | slnil => exact Nat.le_refl _
  | @cons xs ys a hsub ih =>
    have hle := hsub.countP_le (p := p)
    rw [List.countP_cons] at hcount
    have ha : p a = false := by
      by_contra ha
      rw [if_pos (by simpa using ha)] at hcount
      omega
    rw [if_neg (by simp [ha])] at hcount
    rw [List.findIdx_cons, ha]
    exact Nat.le_trans (ih hcount) (Nat.le_succ _)
  | @cons_cons xs ys a _ ih =>
    rw [List.countP_cons, List.countP_cons] at hcount
    rw [List.findIdx_cons, List.findIdx_cons]
    cases p a with
    | true => exact Nat.le_refl _
    | false => exact Nat.succ_le_succ (ih (by omega))

section Padding

variable [DecidableEq α]

theorem countP_replicate_self : (List.replicate n z).countP (· ≠ z) = 0 := by
  rw [List.countP_eq_zero]
  intro x hx
  simp [List.eq_of_mem_replicate hx]

theorem findIdx_append_of_count {xs ys : List α} (h : xs.countP (· ≠ z) ≠ 0) :
    (xs ++ ys).findIdx (· ≠ z) = xs.findIdx (· ≠ z) := by
  obtain ⟨x, hx, hp⟩ := List.countP_pos_iff.mp (Nat.pos_of_ne_zero h)
  rw [List.findIdx_append, if_pos (List.findIdx_lt_length_of_exists ⟨x, hx, hp⟩)]

/-- Padding in front of a list cannot be made up for by elements that are left out. -/
theorem not_shifted {xs ys front : List α} (hsub : xs.Sublist ys)
    (hne : ys.countP (· ≠ z) ≠ 0) (hfront : front ≠ [])
    (h : xs ++ List.replicate m z = front ++ (ys ++ List.replicate n z)) : False := by
  have hcount := congrArg (List.countP (· ≠ z)) h
  simp only [List.countP_append, countP_replicate_self] at hcount
  have hle := hsub.countP_le (p := (· ≠ z))
  have hxs : xs.countP (· ≠ z) = ys.countP (· ≠ z) := by omega
  have hzero : front.countP (· ≠ z) = 0 := by omega
  have hidx := congrArg (List.findIdx (· ≠ z)) h
  rw [findIdx_append_of_count (hxs ▸ hne), List.findIdx_append, if_neg,
    findIdx_append_of_count hne] at hidx
  · have := findIdx_le_of_sublist hsub hxs
    have := List.length_pos_iff.mpr hfront
    omega
  · intro hlt
    have hp := List.findIdx_getElem (w := hlt)
    exact absurd hp (by simpa using List.countP_eq_zero.mp hzero _ (List.getElem_mem hlt))

/-- What is left out of the first record is padding, when the padded lists agree. -/
theorem eq_of_mem_drop {xs ys front : List α} (hsub : xs.Sublist ys)
    (h : xs ++ List.replicate m z = front ++ (ys ++ List.replicate n z)) : ∀ x ∈ front, x = z := by
  have hcount := congrArg (List.countP (· ≠ z)) h
  simp only [List.countP_append, countP_replicate_self] at hcount
  have hle := hsub.countP_le (p := (· ≠ z))
  intro x hx
  have := List.countP_eq_zero.mp (by omega : front.countP (· ≠ z) = 0) x hx
  simpa using this

theorem writtenOut_of_eq (hne : ∀ record ∈ records, record.countP (· ≠ z) ≠ 0)
    (h : pieces records written ++ List.replicate m z = records.flatten ++ List.replicate n z) :
    WrittenOut z records written := by
  induction records generalizing written with
  | nil => exact fun i hi => absurd hi (Nat.not_lt_zero i)
  | cons record records ih =>
    rw [pieces, List.flatten_cons, List.append_assoc, List.append_assoc] at h
    rw [List.forall_mem_cons] at hne
    rw [writtenOut_cons]
    by_cases hfull : record.length ≤ written 0
    · rw [List.take_of_length_le hfull, List.append_cancel_left_eq] at h
      exact ⟨.inl hfull, ih hne.2 h⟩
    · conv_rhs at h => rw [← List.take_append_drop (written 0) record, List.append_assoc]
      rw [List.append_cancel_left_eq] at h
      have hsub := pieces_sublist records fun i => written (i + 1)
      have hfront : record.drop (written 0) ≠ [] := by
        simpa using hfull
      cases records with
      | nil => exact ⟨.inr ⟨rfl, eq_of_mem_drop hsub h⟩, fun i hi => absurd hi (Nat.not_lt_zero i)⟩
      | cons next records =>
        refine (not_shifted hsub ?_ hfront h).elim
        have := hne.2 next List.mem_cons_self
        rw [List.flatten_cons, List.countP_append]
        omega

end Padding

theorem eq_of_writtenOut (hw : WrittenOut z records written)
    (hlen : (pieces records written).length + m = records.flatten.length + n) :
    pieces records written ++ List.replicate m z = records.flatten ++ List.replicate n z := by
  induction records generalizing written with
  | nil =>
    obtain rfl : m = n := by simpa [pieces] using hlen
    rfl
  | cons record records ih =>
    rw [writtenOut_cons] at hw
    obtain ⟨hfull | ⟨rfl, hdrop⟩, hw⟩ := hw
    · rw [pieces, List.take_of_length_le hfull] at hlen ⊢
      rw [List.flatten_cons, List.append_assoc, List.append_assoc]
      rw [List.flatten_cons, List.length_append, List.length_append] at hlen
      rw [ih hw (by omega)]
    · simp only [pieces, List.append_nil, List.flatten_cons, List.flatten_nil] at hlen ⊢
      have hrep := List.eq_replicate_of_mem hdrop
      have hm : m = (record.drop (written 0)).length + n := by
        have := congrArg List.length (List.take_append_drop (written 0) record)
        rw [List.length_append] at this
        omega
      conv_rhs => rw [← List.take_append_drop (written 0) record, hrep, List.append_assoc]
      rw [← List.replicate_add, ← hm]

/-- Padded to one length, the pieces are the records exactly when these are written out. -/
theorem pieces_eq_iff [DecidableEq α] (hne : ∀ record ∈ records, record.countP (· ≠ z) ≠ 0)
    (hlen : (pieces records written).length + m = records.flatten.length + n) :
    pieces records written ++ List.replicate m z = records.flatten ++ List.replicate n z ↔
      WrittenOut z records written :=
  ⟨writtenOut_of_eq hne, fun hw => eq_of_writtenOut hw hlen⟩

end Redx.Library
