import Mathlib.Logic.Function.Basic
import Mathlib.Data.List.FinRange

/-!
# Tables of slots found by key

The node table and the neighbour tables run the same loops over their slots. Here the loops are
written once, over the operations on one entry, together with what they do to a table in which no
two valid entries have one key.
-/
namespace Redx.Monitor

/-- What the loops ask of an entry and do to it; `α` is what a caller looks up, `κ` the key
that decides. -/
structure Entry (σ α κ : Type) where
  valid : σ → Bool
  key : σ → κ
  keyOf : α → κ
  fill : σ → α → σ
  invalidate : σ → σ
  valid_fill : ∀ s a, valid (fill s a) = true
  key_fill : ∀ s a, key (fill s a) = keyOf a
  valid_invalidate : ∀ s, valid (invalidate s) = false

/-- The slots, and the two flags that keep a warning and an error from being logged twice. -/
structure Table (n : ℕ) (σ : Type) where
  entries : Fin n → σ
  warningReported : Bool
  errorReported : Bool

/-- Where the first loop of `intern` has got to: the match, the invalid slot passed last, the
number of valid slots seen, and the slots from the loop's index on. -/
structure Scan (n : ℕ) where
  result : Option (Fin n)
  available : Option (Fin n)
  inUse : ℕ
  rest : List (Fin n)

namespace Entry

variable {n : ℕ} {σ α κ : Type} (e : Entry σ α κ)

/-- The invalid slot that `intern` fills when no valid one holds the key. -/
def lastFree (t : Fin n → σ) : Option (Fin n) :=
  (List.finRange n).reverse.find? fun i => !e.valid (t i)

/-- No two valid slots hold one key. -/
def Unique (t : Fin n → σ) : Prop :=
  ∀ i j, e.valid (t i) = true → e.valid (t j) = true → e.key (t i) = e.key (t j) → i = j

theorem lastFree_some {t : Fin n → σ} {i : Fin n} (h : e.lastFree t = some i) :
    e.valid (t i) = false := by
  simpa using List.find?_some h

theorem lastFree_none {t : Fin n → σ} (h : e.lastFree t = none) (i : Fin n) :
    e.valid (t i) = true := by
  have := List.find?_eq_none.mp h i (by simp)
  simpa using this

variable [DecidableEq κ]

/-- The test of every loop: the slot is valid and holds the key. -/
def hit (t : Fin n → σ) (k : κ) (i : Fin n) : Bool := e.valid (t i) && decide (e.key (t i) = k)

/-- The first loop of `intern`, from the slots of the list on. -/
def scan (t : Fin n → σ) (k : κ) : List (Fin n) → Option (Fin n) → ℕ → Scan n
  | [], available, inUse => ⟨none, available, inUse, []⟩
  | i :: rest, available, inUse =>
    if e.valid (t i) = false then scan t k rest (some i) inUse
    else if e.key (t i) ≠ k then scan t k rest available (inUse + 1)
    else ⟨some i, available, inUse + 1, i :: rest⟩

def intern (t : Table n σ) (a : α) : Option (Fin n) × Table n σ :=
  let s := e.scan t.entries (e.keyOf a) (List.finRange n) none 0
  let t := if s.inUse > 256 then { t with warningReported := true } else t
  match s.result with
  | some i => (some i, t)
  | none =>
    -- the second loop starts where the first one stopped
    match s.available.or (s.rest.find? fun i => !e.valid (t.entries i)) with
    | some i =>
      (some i, { t with entries := Function.update t.entries i (e.fill (t.entries i) a) })
    | none => (none, { t with errorReported := true })

/-- The search that stops at the first match. -/
def findFirst (t : Fin n → σ) (a : α) : Option (Fin n) :=
  (List.finRange n).find? (e.hit t (e.keyOf a))

/-- The search that goes on and keeps the last match. -/
def findLast (t : Fin n → σ) (a : α) : Option (Fin n) :=
  (List.finRange n).foldl (fun result i => if e.hit t (e.keyOf a) i then some i else result) none

def remove (t : Fin n → σ) (a : α) : Fin n → σ := fun i =>
  if e.hit t (e.keyOf a) i then e.invalidate (t i) else t i

variable {e} {t : Fin n → σ} {k : κ} {i j : Fin n} {a : α}

theorem hit_iff : e.hit t k i = true ↔ e.valid (t i) = true ∧ e.key (t i) = k := by
  simp [hit]

/-- The loop stops at the first match; without one it has passed every slot. -/
theorem scan_spec (l : List (Fin n)) (available : Option (Fin n)) (inUse : ℕ) :
    (e.scan t k l available inUse).result = l.find? (e.hit t k) ∧
      (l.find? (e.hit t k) = none → (e.scan t k l available inUse).rest = [] ∧
        (e.scan t k l available inUse).available =
          (l.reverse.find? fun i => !e.valid (t i)).or available) := by
  induction l generalizing available inUse with
  | nil => simp [scan]
  | cons i l ih =>
    rw [scan]
    by_cases hv : e.valid (t i) = false
    · have hhit : e.hit t k i = false := by simp [hit, hv]
      rw [if_pos hv, List.find?_cons_of_neg (by simp [hhit])]
      obtain ⟨hr, hn⟩ := ih (some i) inUse
      refine ⟨hr, fun hnone => ⟨(hn hnone).1, ?_⟩⟩
      rw [(hn hnone).2, List.reverse_cons, List.find?_append]
      simp [hv]
    · rw [if_neg hv]
      by_cases hk : e.key (t i) ≠ k
      · have hhit : e.hit t k i = false := by simp [hit, hk]
        rw [if_pos hk, List.find?_cons_of_neg (by simp [hhit])]
        obtain ⟨hr, hn⟩ := ih available (inUse + 1)
        refine ⟨hr, fun hnone => ⟨(hn hnone).1, ?_⟩⟩
        rw [(hn hnone).2, List.reverse_cons, List.find?_append]
        simp [hv]
      · have hhit : e.hit t k i = true := by
          rw [hit_iff]
          simp only [Bool.not_eq_false, ne_eq, not_not] at hv hk
          exact ⟨hv, hk⟩
        rw [if_neg hk, List.find?_cons_of_pos hhit]
        exact ⟨rfl, nofun⟩

theorem hit_eq_false_of_findFirst (h : e.findFirst t a = none) (i : Fin n) :
    e.hit t (e.keyOf a) i = false := by
  have := List.find?_eq_none.mp h i (List.mem_finRange i)
  simpa using this

/-- The three outcomes of `intern`: the slot that holds the key, the last invalid slot filled
with it, or nothing when every slot is valid and none holds the key. -/
inductive Interns (e : Entry σ α κ) (t : Fin n → σ) (a : α) :
    Option (Fin n) → (Fin n → σ) → Prop
  | found {i : Fin n} : e.hit t (e.keyOf a) i = true → Interns e t a (some i) t
  | placed {i : Fin n} : e.findFirst t a = none → e.lastFree t = some i →
      Interns e t a (some i) (Function.update t i (e.fill (t i) a))
  | full : e.findFirst t a = none → e.lastFree t = none → Interns e t a none t

theorem intern_spec (t : Table n σ) (a : α) :
    Interns e t.entries a (e.intern t a).1 (e.intern t a).2.entries := by
  obtain ⟨hr, hn⟩ := e.scan_spec (t := t.entries) (k := e.keyOf a) (List.finRange n) none 0
  have hflag : ∀ c : Prop, [Decidable c] →
      (if c then { t with warningReported := true } else t).entries = t.entries := by
    intro c _
    split <;> rfl
  rw [intern]
  cases hf : e.findFirst t.entries a with
  | some i =>
    rw [hr, ← findFirst, hf]
    simp only [hflag]
    exact .found (List.find?_some hf)
  | none =>
    obtain ⟨hrest, havail⟩ := hn hf
    rw [hr, ← findFirst, hf]
    rw [hrest, havail, Option.or_none, List.find?_nil, Option.or_none, ← lastFree]
    cases hl : e.lastFree t.entries with
    | some i =>
      simp only [hflag]
      exact .placed hf hl
    | none =>
      simp only [hflag]
      exact .full hf hl

-- the loops over thousands of slots are never to be unfolded by a definitional check
attribute [irreducible] intern

/-- What a search for the key returns: a slot that holds it, or nothing when none does. -/
def Finds (e : Entry σ α κ) (t : Fin n → σ) (a : α) (r : Option (Fin n)) : Prop :=
  (∀ i, r = some i → e.hit t (e.keyOf a) i = true) ∧
    (r = none → ∀ i, e.hit t (e.keyOf a) i = false)

theorem findFirst_finds (t : Fin n → σ) (a : α) : Finds e t a (e.findFirst t a) :=
  ⟨fun _ h => List.find?_some h, hit_eq_false_of_findFirst⟩

theorem foldl_last (p : Fin n → Bool) (l : List (Fin n)) (r : Option (Fin n)) :
    l.foldl (fun result i => if p i then some i else result) r = (l.reverse.find? p).or r := by
  induction l generalizing r with
  | nil => simp
  | cons i l ih =>
    rw [List.foldl_cons, ih, List.reverse_cons, List.find?_append, Option.or_assoc]
    by_cases hp : p i <;> simp [hp]

theorem findLast_finds (t : Fin n → σ) (a : α) : Finds e t a (e.findLast t a) := by
  rw [findLast, foldl_last, Option.or_none]
  refine ⟨fun i h => List.find?_some h, fun h i => ?_⟩
  have := List.find?_eq_none.mp h i (by simp)
  simpa using this

theorem Unique.hit (hu : e.Unique t) (hi : e.hit t k i = true) (hj : e.hit t k j = true) :
    i = j := by
  rw [hit_iff] at hi hj
  exact hu i j hi.1 hj.1 (hi.2.trans hj.2.symm)

/-- In a table with unique keys there is one answer. -/
theorem Finds.unique {r r' : Option (Fin n)} (hu : e.Unique t) (h : Finds e t a r)
    (h' : Finds e t a r') : r = r' := by
  cases r with
  | none =>
    cases r' with
    | none => rfl
    | some j =>
      have hj := h'.1 j rfl
      rw [h.2 rfl j] at hj
      cases hj
  | some i =>
    have hi := h.1 i rfl
    cases r' with
    | none =>
      rw [h'.2 rfl i] at hi
      cases hi
    | some j => rw [hu.hit hi (h'.1 j rfl)]

/-- A slot that held no valid entry takes a key that no valid slot has. -/
theorem Unique.placed (hu : e.Unique t) (ha : e.findFirst t a = none) :
    e.Unique (Function.update t i (e.fill (t i) a)) := by
  have hne : ∀ j, e.valid (t j) = true → e.key (t j) ≠ e.keyOf a := by
    intro j hj hk
    have hhit := hit_eq_false_of_findFirst ha j
    rw [hit_iff.mpr ⟨hj, hk⟩] at hhit
    cases hhit
  intro x y hx hy hk
  by_cases hxi : x = i <;> by_cases hyi : y = i
  · rw [hxi, hyi]
  · subst hxi
    rw [Function.update_self, Function.update_of_ne hyi, e.key_fill] at hk
    rw [Function.update_of_ne hyi] at hy
    exact absurd hk.symm (hne y hy)
  · subst hyi
    rw [Function.update_self, Function.update_of_ne hxi, e.key_fill] at hk
    rw [Function.update_of_ne hxi] at hx
    exact absurd hk (hne x hx)
  · rw [Function.update_of_ne hxi] at hx hk
    rw [Function.update_of_ne hyi] at hy hk
    exact hu x y hx hy hk

section Interns

variable {r : Option (Fin n)} {t' : Fin n → σ}

theorem Interns.unique (h : Interns e t a r t') (hu : e.Unique t) : e.Unique t' := by
  cases h with
  | found => exact hu
  | placed ha => exact hu.placed ha
  | full => exact hu

/-- What `intern` returns is what a search of the new table finds. -/
theorem Interns.finds (h : Interns e t a r t') : Finds e t' a r := by
  cases h with
  | found hi => exact ⟨fun _ h => Option.some.inj h ▸ hi, nofun⟩
  | @placed i ha _ =>
    refine ⟨fun j h => ?_, nofun⟩
    obtain rfl := Option.some.inj h
    rw [hit_iff, Function.update_self]
    exact ⟨e.valid_fill _ _, e.key_fill _ _⟩
  | full ha => exact ⟨nofun, fun _ => hit_eq_false_of_findFirst ha⟩

theorem Interns.frame (h : Interns e t a r t') (hv : e.valid (t i) = true) : t' i = t i := by
  cases h with
  | found => rfl
  | @placed j ha hj =>
    have hne : i ≠ j := by
      rintro rfl
      rw [e.lastFree_some hj] at hv
      cases hv
    rw [Function.update_of_ne hne]
  | full => rfl

theorem Interns.eq_none (h : Interns e t a r t') :
    r = none ↔ (∀ i, e.hit t (e.keyOf a) i = false) ∧ ∀ i, e.valid (t i) = true := by
  cases h with
  | @found i hi =>
    refine ⟨nofun, fun h => ?_⟩
    rw [h.1 i] at hi
    cases hi
  | @placed i _ hi =>
    refine ⟨nofun, fun h => ?_⟩
    have := e.lastFree_some hi
    rw [h.2 i] at this
    cases this
  | full ha hl => exact ⟨fun _ => ⟨hit_eq_false_of_findFirst ha, e.lastFree_none hl⟩, fun _ => rfl⟩

/-- A second `intern` of the key changes nothing. -/
theorem Interns.again {r₂ : Option (Fin n)} {t₂ : Fin n → σ} (h : Interns e t a r t')
    (h₂ : Interns e t' a r₂ t₂) (hu : e.Unique t) : r₂ = r ∧ t₂ = t' := by
  have hfinds := h.finds
  cases h₂ with
  | found hj =>
    have hj' : Finds e t' a (some _) := ⟨fun _ h => Option.some.inj h ▸ hj, nofun⟩
    exact ⟨hj'.unique (h.unique hu) hfinds, rfl⟩
  | @placed i ha hl =>
    have hnone : none = r := ha ▸ (findFirst_finds t' a).unique (h.unique hu) hfinds
    have hv := (h.eq_none.mp hnone.symm).2 i
    have hi := e.lastFree_some hl
    rw [h.frame hv, hv] at hi
    cases hi
  | full ha => exact ⟨ha ▸ (findFirst_finds t' a).unique (h.unique hu) hfinds, rfl⟩

end Interns

theorem remove_of_ne (h : e.hit t (e.keyOf a) i = false) : e.remove t a i = t i := by
  simp [remove, h]

theorem remove_of_hit (h : e.hit t (e.keyOf a) i = true) :
    e.valid (e.remove t a i) = false := by
  simp [remove, h, e.valid_invalidate]

theorem Unique.remove (hu : e.Unique t) : e.Unique (e.remove t a) := by
  have hold : ∀ i, e.valid (e.remove t a i) = true → e.remove t a i = t i := by
    intro i hv
    cases hi : e.hit t (e.keyOf a) i with
    | false => exact remove_of_ne hi
    | true =>
      rw [remove_of_hit hi] at hv
      cases hv
  intro x y hx hy hk
  have hx' := hold x hx
  have hy' := hold y hy
  rw [hx'] at hx hk
  rw [hy'] at hy hk
  exact hu x y hx hy hk

theorem remove_finds : Finds e (e.remove t a) a none := by
  refine ⟨nofun, fun _ i => ?_⟩
  cases hi : e.hit t (e.keyOf a) i with
  | false =>
    rw [hit, remove_of_ne hi]
    exact hi
  | true => simp [hit, remove_of_hit hi]

end Entry

end Redx.Monitor
