import Redx.Library.Ring
import Mathlib.Data.Nat.Notation
import Mathlib.Data.Set.Insert

/-!
# Queues of messages

A queue has two rings: the messages, and the entries to be used again. What is enqueued goes
behind the head of its ring, and what is dequeued comes from in front of it.
-/
namespace Redx.Thread
open Library

/-- The entries that are in the queue itself. -/
inductive Anchor where
  | head
  | freelist
  deriving DecidableEq, Repr

/-- Where an entry is: in the queue, or where `new` has put it. -/
inductive Address where
  | anchor (a : Anchor)
  | block (n : ℕ)
  deriving DecidableEq, Repr

/-- The fields of all entries, and how many there are from `new`. A message is a pointer. -/
structure Queue where
  next : Address → Address
  previous : Address → Address
  message : Address → ℕ
  blocks : ℕ

namespace Queue

/-- `Queue::Queue`: an entry that is constructed is its own neighbour. -/
def new : Queue := ⟨id, id, fun _ => 0, 0⟩

/-- `Entry::insert` -/
def insert (this entry : Address) (q : Queue) : Queue :=
  let q := { q with next := Function.update q.next entry (q.next this) }
  let q := { q with previous := Function.update q.previous entry this }
  let q := { q with previous := Function.update q.previous (q.next this) entry }
  { q with next := Function.update q.next this entry }

/-- `Entry::remove` -/
def remove (this : Address) (q : Queue) : Address × Queue :=
  let entry := q.previous this
  let q := { q with previous := Function.update q.previous this (q.previous entry) }
  (entry, { q with next := Function.update q.next (q.previous this) this })

/-- `Entry::empty` -/
def isEmpty (this : Address) (q : Queue) : Bool := q.next this = this

/-- `entry->message = data` -/
def setMessage (entry : Address) (data : ℕ) (q : Queue) : Queue :=
  { q with message := Function.update q.message entry data }

/-- `new Entry( data )` -/
def newEntry (data : ℕ) (q : Queue) : Address × Queue :=
  let entry := .block q.blocks
  (entry, { q with
    next := Function.update q.next entry entry
    previous := Function.update q.previous entry entry
    message := Function.update q.message entry data
    blocks := q.blocks + 1 })

/-- What `allocate` does when the list of free entries was empty, and when it was not. -/
def take (empty : Bool) (data : ℕ) (q : Queue) : Address × Queue :=
  if empty then q.newEntry data
  else
    let (entry, q) := q.remove (.anchor .freelist)
    (entry, q.setMessage entry data)

def allocate (data : ℕ) (q : Queue) : Address × Queue := q.take (q.isEmpty (.anchor .freelist)) data

def enqueue (data : ℕ) (q : Queue) : Queue :=
  let (entry, q) := q.allocate data
  q.insert (.anchor .head) entry

def dequeue (q : Queue) : ℕ × Queue :=
  let (entry, q) := q.remove (.anchor .head)
  (q.message entry, q.insert (.anchor .freelist) entry)

/-- The loop of `depth`, from an entry on. -/
def count (q : Queue) : ℕ → Address → Option ℕ
  | 0, _ => none
  | n + 1, dot => if dot = .anchor .head then some 0 else (q.count n (q.next dot)).map (· + 1)

/-- `depth`, where the walk around the ring may take so many steps. The count, an `int`, is a
natural number, as it is for fewer than 2^31 messages. -/
def depth (steps : ℕ) (q : Queue) : Option ℕ := q.count steps (q.next (.anchor .head))

end Queue

/-- The entries of both rings, the one inserted last first. An entry from `new` is in one of them,
or in use elsewhere. -/
structure Represents (q : Queue) (entries : Anchor → List Address) (used : Set Address) : Prop where
  ring : ∀ a, Ring q.next q.previous (.anchor a) (entries a)
  apart : ∀ a b, ∀ e ∈ entries a, e ∈ entries b → a = b
  unused : ∀ a, ∀ e ∈ entries a, e ∉ used
  all : ∀ e, (e ∈ used ∨ ∃ a, e ∈ entries a) ↔ ∃ n < q.blocks, e = .block n

variable {q : Queue} {entries : Anchor → List Address} {used : Set Address} {a b : Anchor}
  {e : Address} {l : List Address} {data n : ℕ}

namespace Represents

theorem ne_anchor (h : Represents q entries used) (he : e ∈ entries a) : e ≠ .anchor b := by
  obtain ⟨n, -, rfl⟩ := (h.all e).mp (.inr ⟨a, he⟩)
  exact nofun

theorem used_ne_anchor (h : Represents q entries used) (he : e ∈ used) : e ≠ .anchor b := by
  obtain ⟨n, -, rfl⟩ := (h.all e).mp (.inl he)
  exact nofun

/-- The rings have no entry in common. -/
theorem notMem (h : Represents q entries used) (hab : a ≠ b)
    (he : e ∈ Address.anchor a :: entries a) : e ∉ Address.anchor b :: entries b := by
  intro hb
  rcases List.mem_cons.mp he with rfl | he <;> rcases List.mem_cons.mp hb with hb | hb
  · exact hab (Address.anchor.inj hb)
  · exact h.ne_anchor hb rfl
  · exact h.ne_anchor he hb
  · exact hab (h.apart a b e he hb)

theorem used_notMem (h : Represents q entries used) (he : e ∈ used) :
    e ∉ Address.anchor a :: entries a := by
  rw [List.mem_cons, not_or]
  exact ⟨h.used_ne_anchor he, fun hc => h.unused a e hc he⟩

end Represents

theorem exists_mem_update : (∃ b, e ∈ Function.update entries a l b) ↔
    e ∈ l ∨ ∃ b, b ≠ a ∧ e ∈ entries b := by
  constructor
  · rintro ⟨b, hb⟩
    by_cases hba : b = a
    · rw [hba, Function.update_self] at hb
      exact .inl hb
    · rw [Function.update_of_ne hba] at hb
      exact .inr ⟨b, hba, hb⟩
  · rintro (he | ⟨b, hba, he⟩)
    · exact ⟨a, by rwa [Function.update_self]⟩
    · exact ⟨b, by rwa [Function.update_of_ne hba]⟩

theorem exists_mem_iff : (∃ b, e ∈ entries b) ↔ e ∈ entries a ∨ ∃ b, b ≠ a ∧ e ∈ entries b := by
  rw [← exists_mem_update, Function.update_eq_self]

theorem head_ne_freelist : Anchor.head ≠ .freelist := nofun

theorem insert_sdiff (he : e ∉ used) : Insert.insert e used \ {e} = used := by
  ext x
  rw [Set.mem_sdiff, Set.mem_insert_iff, Set.mem_singleton_iff]
  grind

theorem represents_new : Represents .new (fun _ => []) ∅ where
  ring a := Ring.nil_iff.mpr ⟨rfl, rfl⟩
  apart a b e he := absurd he List.not_mem_nil
  unused a e he := absurd he List.not_mem_nil
  all e := by simp [Queue.new, Set.mem_empty_iff_false]

/-- What an insertion stores, in one step. -/
theorem insert_eq (this : Address) (hne : e ≠ this) :
    q.insert this e = { q with
      next := Function.update (Function.update q.next e (q.next this)) this e
      previous := Function.update (Function.update q.previous e this) (q.next this) e } := by
  simp only [Queue.insert, Function.update_of_ne hne.symm]

/-- An entry that was in use is inserted behind an anchor. -/
theorem Represents.insert (h : Represents q entries used) (he : e ∈ used) (a : Anchor) :
    Represents (q.insert (.anchor a) e) (Function.update entries a (e :: entries a))
      (used \ {e}) := by
  rw [insert_eq _ (h.used_ne_anchor he)]
  refine ⟨fun b => ?_, fun b c x hx hx' => ?_, fun b x hx => ?_, fun x => ?_⟩
  · by_cases hb : b = a
    · subst hb
      rw [Function.update_self]
      exact (h.ring b).insert (h.used_notMem he)
    · rw [Function.update_of_ne hb]
      -- none of the stores is at an entry of the other ring
      refine (h.ring b).congr (fun x hx => ?_) fun x hx => ?_
      · have hxa : x ≠ .anchor a := fun hc => h.notMem hb hx (hc ▸ List.mem_cons_self)
        have hxe : x ≠ e := fun hc => h.used_notMem he (hc ▸ hx)
        simp only [Function.update_of_ne hxa, Function.update_of_ne hxe]
      · have hxn : x ≠ q.next (.anchor a) :=
          fun hc => h.notMem hb hx (hc ▸ (h.ring a).next_mem List.mem_cons_self)
        have hxe : x ≠ e := fun hc => h.used_notMem he (hc ▸ hx)
        simp only [Function.update_of_ne hxn, Function.update_of_ne hxe]
  · have := h.apart b c x
    have := h.unused b x
    have := h.unused c x
    grind
  · have := h.unused b x
    have := h.unused a e
    rw [Set.mem_sdiff, Set.mem_singleton_iff]
    grind
  · rw [← h.all x, Set.mem_sdiff, Set.mem_singleton_iff, exists_mem_update,
      exists_mem_iff (a := a)]
    grind

/-- The entry in front of an anchor is taken. -/
theorem Represents.remove (h : Represents q entries used) (ha : entries a = l ++ [e]) :
    (q.remove (.anchor a)).1 = e ∧
      Represents (q.remove (.anchor a)).2 (Function.update entries a l) (Insert.insert e used) := by
  have hring : Ring q.next q.previous (.anchor a) (l ++ [e]) := ha ▸ h.ring a
  have he := hring.previous_eq
  have hnd := hring.nodup
  have hmem : e ∈ entries a := by simp [ha]
  simp only [List.nodup_cons, List.nodup_append, List.mem_append, List.mem_singleton] at hnd
  refine ⟨he, fun b => ?_, fun b c x hx hx' => ?_, fun b x hx => ?_, fun x => ?_⟩
  · simp only [Queue.remove, Function.update_self]
    by_cases hb : b = a
    · subst hb
      rw [Function.update_self, he]
      exact hring.remove
    · rw [Function.update_of_ne hb]
      -- both stores are at entries of this ring
      have hprevious := (h.ring a).previous_mem (List.mem_cons_of_mem _ hmem)
      refine (h.ring b).congr (fun x hx => ?_) fun x hx => ?_
      · have hxp : x ≠ q.previous e := fun hc => h.notMem hb hx (hc ▸ hprevious)
        rw [he, Function.update_of_ne hxp]
      · have hxa : x ≠ .anchor a := fun hc => h.notMem hb hx (hc ▸ List.mem_cons_self)
        rw [Function.update_of_ne hxa]
  · have := h.apart b c x
    grind
  · have := h.unused b x
    have := h.apart b a x
    rw [Set.mem_insert_iff]
    grind
  · refine Iff.trans ?_ (h.all x)
    rw [Set.mem_insert_iff, exists_mem_update, exists_mem_iff (a := a), ha, List.mem_append,
      List.mem_singleton]
    grind

theorem Represents.newEntry (h : Represents q entries used) (data : ℕ) :
    Represents (q.newEntry data).2 entries (Insert.insert (.block q.blocks) used) := by
  have hnew (a : Anchor) : Address.block q.blocks ∉ Address.anchor a :: entries a := by
    intro hc
    rcases List.mem_cons.mp hc with hc | hc
    · cases hc
    · obtain ⟨n, hn, hb⟩ := (h.all _).mp (.inr ⟨a, hc⟩)
      exact Nat.ne_of_gt hn (Address.block.inj hb)
  refine ⟨fun a => ?_, h.apart, fun a x hx => ?_, fun x => ?_⟩
  · have hne : ∀ x ∈ Address.anchor a :: entries a, x ≠ .block q.blocks :=
      fun x hx hc => hnew a (hc ▸ hx)
    exact (h.ring a).congr (fun x hx => Function.update_of_ne (hne x hx) ..)
      fun x hx => Function.update_of_ne (hne x hx) ..
  · rw [Set.mem_insert_iff, not_or]
    exact ⟨fun hc => hnew a (hc ▸ List.mem_cons_of_mem _ hx), h.unused a x hx⟩
  · rw [Set.mem_insert_iff, or_assoc, h.all x]
    constructor
    · rintro (rfl | ⟨n, hn, rfl⟩)
      · exact ⟨_, Nat.lt_succ_self _, rfl⟩
      · exact ⟨n, Nat.lt_succ_of_lt hn, rfl⟩
    · rintro ⟨n, hn, rfl⟩
      rcases Nat.lt_succ_iff_lt_or_eq.mp hn with hn | rfl
      · exact .inr ⟨n, hn, rfl⟩
      · exact .inl rfl

theorem Represents.isEmpty (h : Represents q entries used) :
    q.isEmpty (.anchor a) = true ↔ entries a = [] := by
  rw [Queue.isEmpty, decide_eq_true_iff]
  exact (h.ring a).next_eq_self

/-- What `allocate` does behind its test makes an entry that nothing else uses. -/
theorem Represents.take_true (h : Represents q entries used) (data : ℕ) :
    Represents (q.take true data).2 entries (Insert.insert (q.take true data).1 used) ∧
      (q.take true data).2.message = Function.update q.message (q.take true data).1 data ∧
      (q.take true data).2.blocks = q.blocks + 1 :=
  ⟨h.newEntry data, rfl, rfl⟩

theorem Represents.take_false (h : Represents q entries used)
    (hf : entries .freelist = l ++ [e]) (data : ℕ) :
    (q.take false data).1 = e ∧
      Represents (q.take false data).2 (Function.update entries .freelist l)
        (Insert.insert e used) ∧
      (q.take false data).2.message = Function.update q.message e data ∧
      (q.take false data).2.blocks = q.blocks := by
  obtain ⟨he, hr⟩ := h.remove hf
  exact ⟨he, ⟨hr.ring, hr.apart, hr.unused, hr.all⟩, congrArg (Function.update _ · _) he, rfl⟩

/-- The walk of `depth` along a path that ends at the head. -/
theorem count_of_path {x : Address} (h : Path q.next q.previous x l (.anchor .head))
    (hl : .anchor .head ∉ l) (hn : l.length < n) : q.count n (q.next x) = some l.length := by
  induction l generalizing x n with
  | nil =>
    obtain ⟨n, rfl⟩ := Nat.exists_eq_add_one.mpr hn
    cases h with
    | link hnext => rw [hnext, Queue.count, if_pos rfl, List.length_nil]
  | cons c l ih =>
    obtain ⟨n, rfl⟩ := Nat.exists_eq_add_one.mpr (Nat.zero_lt_of_lt hn)
    rw [List.mem_cons, not_or] at hl
    cases h with
    | node hnext _ h =>
      rw [hnext, Queue.count, if_neg (Ne.symm hl.1), ih h hl.2 (Nat.lt_of_succ_lt_succ hn)]
      rfl

theorem Represents.depth (h : Represents q entries used) (hn : (entries .head).length < n) :
    q.depth n = some (entries .head).length :=
  count_of_path (h.ring .head).path (List.nodup_cons.mp (h.ring .head).nodup).1 hn

end Redx.Thread
