import Mathlib.Algebra.Group.Nat.Defs
import Mathlib.Data.Int.Basic
import Mathlib.Data.List.Lex
import Mathlib.Data.Set.Finite.Basic
import Mathlib.Order.WellFounded

/-!
# Orders from comparators and from digits

A comparator returns a number whose sign is the answer. One that takes the first difference of
two records of numbers agrees with the lexicographic order of their digits; one that wraps its
difference at a power of two orders the keys that lie within half of the circle.
-/
namespace Redx.Library

section Lists

variable {α : Type*}

/-- Words are compared by their first parts, and by the rest when these are the same. -/
theorem append_lt_append_iff [LT α] [Std.Irrefl (· < · : α → α → Prop)] {l₁ l₂ : List α}
    (h : l₁.length = l₂.length) (m₁ m₂ : List α) :
    l₁ ++ m₁ < l₂ ++ m₂ ↔ l₁ < l₂ ∨ l₁ = l₂ ∧ m₁ < m₂ := by
  induction l₁ generalizing l₂ with
  | nil =>
    obtain rfl : l₂ = [] := List.length_eq_zero_iff.mp h.symm
    simp
  | cons a l₁ ih =>
    cases l₂ with
    | nil => cases h
    | cons b l₂ =>
      rw [List.cons_append, List.cons_append, List.cons_lt_cons_iff, List.cons_lt_cons_iff,
        ih (Nat.succ.inj h), List.cons.injEq]
      tauto

/-- The digits of a number in a base, most significant first, in a given width. -/
def digits (base : ℕ) (char : ℕ → α) : ℕ → ℕ → List α
  | 0, _ => []
  | width + 1, n => digits base char width (n / base) ++ [char (n % base)]

variable {base : ℕ} {char : ℕ → α}

@[simp] theorem length_digits (width n : ℕ) : (digits base char width n).length = width := by
  induction width generalizing n with
  | zero => rfl
  | succ width ih => rw [digits, List.length_append, ih, List.length_singleton]

section Increasing

variable [LT α] [Std.Irrefl (· < · : α → α → Prop)]
  (hchar : ∀ i < base, ∀ j < base, char i < char j ↔ i < j)

include hchar in
theorem char_inj {i j : ℕ} (hi : i < base) (hj : j < base) : char i = char j ↔ i = j := by
  refine ⟨fun heq => ?_, fun heq => heq ▸ rfl⟩
  have h1 := (hchar i hi j hj).not.mp (heq ▸ Std.Irrefl.irrefl _)
  have h2 := (hchar j hj i hi).not.mp (heq ▸ Std.Irrefl.irrefl _)
  omega

theorem base_pos {width m : ℕ} (hm : m < base ^ (width + 1)) : 0 < base := by
  by_contra h0
  rw [Nat.eq_zero_of_not_pos h0, Nat.pow_succ, Nat.mul_zero] at hm
  exact Nat.not_lt_zero _ hm

include hchar in
theorem digits_inj {width m n : ℕ} (hm : m < base ^ width) (hn : n < base ^ width) :
    digits base char width m = digits base char width n ↔ m = n := by
  refine ⟨fun heq => ?_, fun heq => heq ▸ rfl⟩
  induction width generalizing m n with
  | zero =>
    rw [Nat.pow_zero, Nat.lt_one_iff] at hm hn
    rw [hm, hn]
  | succ width ih =>
    have hbase := base_pos hm
    rw [Nat.pow_succ'] at hm hn
    obtain ⟨hfront, hlast⟩ := List.append_inj heq (by simp)
    have hdiv := ih (Nat.div_lt_of_lt_mul hm) (Nat.div_lt_of_lt_mul hn) hfront
    have hmod := (char_inj hchar (Nat.mod_lt m hbase) (Nat.mod_lt n hbase)).mp
      (List.singleton_inj.mp hlast)
    rw [← Nat.div_add_mod m base, ← Nat.div_add_mod n base, hdiv, hmod]

include hchar in
/-- Words of one width are ordered as the numbers are. -/
theorem digits_lt_iff {width m n : ℕ} (hm : m < base ^ width) (hn : n < base ^ width) :
    digits base char width m < digits base char width n ↔ m < n := by
  induction width generalizing m n with
  | zero =>
    rw [Nat.pow_zero, Nat.lt_one_iff] at hm hn
    rw [hm, hn]
    exact iff_of_false (List.lt_irrefl _) (Nat.lt_irrefl _)
  | succ width ih =>
    have hbase := base_pos hm
    rw [Nat.pow_succ'] at hm hn
    have hm' := Nat.div_lt_of_lt_mul hm
    have hn' := Nat.div_lt_of_lt_mul hn
    rw [digits, digits, append_lt_append_iff (by simp), ih hm' hn', digits_inj hchar hm' hn',
      List.cons_lt_cons_iff, hchar _ (Nat.mod_lt _ hbase) _ (Nat.mod_lt _ hbase)]
    have hdiv := Nat.div_add_mod m base
    have hdiv' := Nat.div_add_mod n base
    constructor
    · rintro (hlt | ⟨heq, hlt⟩)
      · exact Nat.lt_of_div_lt_div hlt
      · rw [← hdiv, ← hdiv', heq]
        simpa using hlt
    · intro hlt
      rcases Nat.lt_or_eq_of_le (Nat.div_le_div_right (c := base) hlt.le) with h | h
      · exact .inl h
      · refine .inr ⟨h, .inl ?_⟩
        rw [← hdiv, ← hdiv', h] at hlt
        omega

include hchar in
/-- Numbers written in one width before other words. -/
theorem digits_append_lt_iff {width m n : ℕ} (hm : m < base ^ width) (hn : n < base ^ width)
    (l₁ l₂ : List α) : digits base char width m ++ l₁ < digits base char width n ++ l₂ ↔
      m < n ∨ m = n ∧ l₁ < l₂ := by
  rw [append_lt_append_iff (by simp), digits_lt_iff hchar hm hn, digits_inj hchar hm hn]

end Increasing

end Lists

section Comparators

variable {α β : Type*}

/-- The comparator orders the keys of `s` totally. -/
structure Orders (compare : α → α → ℤ) (s : Set α) : Prop where
  eq_zero_iff : ∀ a ∈ s, ∀ b ∈ s, compare a b = 0 ↔ a = b
  sign_swap : ∀ a ∈ s, ∀ b ∈ s, (compare b a).sign = -(compare a b).sign
  trans : ∀ a ∈ s, ∀ b ∈ s, ∀ c ∈ s, compare a b < 0 → compare b c < 0 → compare a c < 0

variable {compare : α → α → ℤ} {s : Set α}

/-- A comparator that tells the order of the images in a linear order. -/
theorem Orders.of_key [LinearOrder β] (key : α → β) (hkey : Set.InjOn key s)
    (hlt : ∀ a ∈ s, ∀ b ∈ s, compare a b < 0 ↔ key a < key b)
    (hgt : ∀ a ∈ s, ∀ b ∈ s, 0 < compare a b ↔ key b < key a) : Orders compare s where
  eq_zero_iff a ha b hb := by
    have h1 := hlt a ha b hb
    have h2 := hgt a ha b hb
    constructor
    · intro h0
      rw [h0, lt_self_iff_false, false_iff, not_lt] at h1 h2
      exact hkey ha hb (le_antisymm h2 h1)
    · rintro rfl
      rw [lt_self_iff_false, iff_false, not_lt] at h1 h2
      exact Int.le_antisymm h2 h1
  sign_swap a ha b hb := by
    rcases lt_trichotomy (key a) (key b) with h | h | h
    · rw [Int.sign_eq_neg_one_of_neg ((hlt a ha b hb).mpr h),
        Int.sign_eq_one_of_pos ((hgt b hb a ha).mpr h)]
      rfl
    · obtain rfl := hkey ha hb h
      have h1 := (hlt a ha a ha).not.mpr (lt_irrefl _)
      have h2 := (hgt a ha a ha).not.mpr (lt_irrefl _)
      rw [show compare a a = 0 by omega]
      rfl
    · rw [Int.sign_eq_one_of_pos ((hgt a ha b hb).mpr h),
        Int.sign_eq_neg_one_of_neg ((hlt b hb a ha).mpr h)]
  trans a ha b hb c hc hab hbc :=
    (hlt a ha c hc).mpr (((hlt a ha b hb).mp hab).trans ((hlt b hb c hc).mp hbc))

/-- Finitely many keys that are totally ordered have a least one. -/
theorem Orders.exists_least [Finite α] (h : Orders compare s) (hs : s.Nonempty) :
    ∃ t ∈ s, ∀ k ∈ s, k = t ∨ compare t k < 0 := by
  let r : s → s → Prop := fun a b => compare a b < 0
  have : IsTrans s r := ⟨fun a b c => h.trans a a.2 b b.2 c c.2⟩
  have : Std.Irrefl r := ⟨fun a ha => absurd ((h.eq_zero_iff a a.2 a a.2).mpr rfl) ha.ne⟩
  obtain ⟨t, -, ht⟩ := (Finite.wellFounded_of_trans_of_irrefl r).has_min Set.univ
    ⟨⟨hs.some, hs.some_mem⟩, trivial⟩
  refine ⟨t, t.2, fun k hk => ?_⟩
  rcases Int.lt_trichotomy (compare t k) 0 with hlt | heq | hgt
  · exact .inr hlt
  · exact .inl ((h.eq_zero_iff t t.2 k hk).mp heq).symm
  · have hswap := h.sign_swap t t.2 k hk
    rw [Int.sign_eq_one_of_pos hgt] at hswap
    exact absurd (Int.neg_of_sign_eq_neg_one hswap) (ht ⟨k, hk⟩ trivial)

/-- The first difference that is not zero. -/
def firstDifference : List ℤ → ℤ
  | [] => 0
  | d :: ds => if d ≠ 0 then d else firstDifference ds

theorem firstDifference_neg_iff {xs ys : List ℕ} (h : xs.length = ys.length) :
    firstDifference (List.zipWith (fun x y : ℕ => (x : ℤ) - y) xs ys) < 0 ↔ xs < ys := by
  induction xs generalizing ys with
  | nil =>
    obtain rfl : ys = [] := List.length_eq_zero_iff.mp h.symm
    simp [firstDifference]
  | cons x xs ih =>
    cases ys with
    | nil => cases h
    | cons y ys =>
      rw [List.zipWith_cons_cons, firstDifference, List.cons_lt_cons_iff, ← ih (Nat.succ.inj h)]
      split <;> omega

theorem firstDifference_swap (xs ys : List ℕ) :
    firstDifference (List.zipWith (fun x y : ℕ => (x : ℤ) - y) xs ys) =
      -firstDifference (List.zipWith (fun x y : ℕ => (x : ℤ) - y) ys xs) := by
  induction xs generalizing ys with
  | nil => simp [firstDifference]
  | cons x xs ih =>
    cases ys with
    | nil => rfl
    | cons y ys =>
      rw [List.zipWith_cons_cons, List.zipWith_cons_cons, firstDifference, firstDifference, ih]
      split <;> split <;> omega

theorem bmod_pos_iff {n : ℕ} (hn : 0 < n) (d : ℤ) :
    0 < d.bmod (2 * n) ↔ d % (2 * n : ℕ) ≠ 0 ∧ d % (2 * n : ℕ) < n := by
  have hlow := Int.emod_nonneg d (show ((2 * n : ℕ) : ℤ) ≠ 0 by omega)
  have hhigh := Int.emod_lt_of_pos d (show (0 : ℤ) < (2 * n : ℕ) by omega)
  rw [Int.bmod_def]
  split <;> omega

/-- A difference cut to a signed word orders exactly the keys that lie in half of the circle. -/
theorem orders_bmod_iff [Finite α] {n : ℕ} (hn : 0 < n) {value : α → ℤ}
    (hvalue : ∀ a b, value a % (2 * n : ℕ) = value b % (2 * n : ℕ) → a = b) :
    Orders (fun a b => (value a - value b).bmod (2 * n)) s ↔
      ∃ t : ℤ, ∀ k ∈ s, (value k - t) % (2 * n : ℕ) < n := by
  constructor
  · intro h
    rcases s.eq_empty_or_nonempty with rfl | hs
    · exact ⟨0, fun k hk => hk.elim⟩
    · obtain ⟨t, ht, hleast⟩ := h.exists_least hs
      refine ⟨value t, fun k hk => ?_⟩
      rcases hleast k hk with rfl | hneg
      · simpa using hn
      · have hswap := h.sign_swap t ht k hk
        rw [Int.sign_eq_neg_one_of_neg hneg] at hswap
        exact ((bmod_pos_iff hn _).mp (Int.pos_of_sign_eq_one hswap)).2
  · rintro ⟨t, ht⟩
    have hlow (k : α) : 0 ≤ (value k - t) % (2 * n : ℕ) := Int.emod_nonneg _ (by omega)
    have hdiff : ∀ a ∈ s, ∀ b ∈ s, (value a - value b).bmod (2 * n) =
        (value a - t) % (2 * n : ℕ) - (value b - t) % (2 * n : ℕ) := by
      intro a ha b hb
      have h1 := hlow a
      have h2 := hlow b
      have h3 := ht a ha
      have h4 := ht b hb
      have hshift : (value a - t) - (value b - t) = value a - value b := by omega
      rw [← hshift, ← Int.emod_sub_bmod, ← Int.sub_emod_bmod]
      exact Int.bmod_eq_of_le (by omega) (by omega)
    refine Orders.of_key (fun k => (value k - t) % (2 * n : ℕ)) ?_ ?_ ?_
    · intro a _ b _ heq
      exact hvalue a b ((Int.emod_sub_cancel_right t).mp heq)
    · intro a ha b hb
      rw [hdiff a ha b hb]
      omega
    · intro a ha b hb
      rw [hdiff a ha b hb]
      omega

end Comparators

end Redx.Library
