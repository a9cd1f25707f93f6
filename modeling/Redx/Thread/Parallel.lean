import Redx.Thread.Fifo
import Mathlib.Data.Sum.Basic

/-!
# Threads at one queue

The locks are those of the rings, so that a thread may come between any two uses of them, and
between the test for free entries and the removal of one. A queue is safe for one thread that
enqueues and one that waits and dequeues, and not for more on either side.
-/
namespace Redx.Thread.Parallel
open Library

/-- Where a thread is in `enqueue`: it has found the list of free entries empty or not, or it has
an entry for its message. -/
inductive Producer where
  | idle
  | decided (data : ℕ) (empty : Bool)
  | holds (data : ℕ) (entry : Address)
  deriving DecidableEq, Repr

/-- Where a thread is in `wait` and `dequeue`: it has seen a message, or has taken one. -/
inductive Consumer where
  | idle
  | ready
  | holds (entry : Address)
  deriving DecidableEq, Repr

variable {P C : Type*}

structure State (P C : Type*) where
  queue : Queue
  producers : P → Producer
  consumers : C → Consumer

def start (P C : Type*) : State P C := ⟨.new, fun _ => .idle, fun _ => .idle⟩

inductive Event (P C : Type*) where
  | test (i : P) (data : ℕ)
  | take (i : P)
  | insert (i : P) (data : ℕ)
  | wait (j : C)
  | remove (j : C)
  | free (j : C) (data : ℕ)

/-- The entry that a thread has. -/
def Producer.entry : Producer → Option Address
  | .holds _ e => some e
  | _ => none

def Consumer.entry : Consumer → Option Address
  | .holds e => some e
  | _ => none

def State.holding (s : State P C) : P ⊕ C → Option Address :=
  Sum.elim (Producer.entry ∘ s.producers) (Consumer.entry ∘ s.consumers)

/-- Entries that some thread has. -/
def used {T : Type*} (holding : T → Option Address) : Set Address := {e | ∃ t, holding t = some e}

/-- No entry is had by two threads. -/
def Apart {T : Type*} (holding : T → Option Address) : Prop :=
  ∀ t u e, holding t = some e → holding u = some e → t = u

/-- Every entry is in one of the rings, or a thread has it, and nothing else is in them. -/
def Sound (s : State P C) : Prop :=
  ∃ entries, Represents s.queue entries (used s.holding) ∧ Apart s.holding

/-- The queue as those who use it see it: the messages that wait, the oldest first, and the one
that a thread has taken out. -/
@[ext]
structure View (C : Type*) where
  waiting : List ℕ
  taken : C → Option ℕ

def view (s : State P C) (entries : Anchor → List Address) : View C where
  waiting := contents s.queue (entries .head)
  taken j := (s.consumers j).entry.map s.queue.message

/-- What holds between any two steps. What a thread has seen in a ring is still there, since there
is no other thread to take it. -/
structure Safe (s : State P C) (entries : Anchor → List Address) : Prop where
  represents : Represents s.queue entries (used s.holding)
  apart : Apart s.holding
  filled : ∀ i data e, s.producers i = .holds data e → s.queue.message e = data
  decided : ∀ i data, s.producers i = .decided data false → entries .freelist ≠ []
  ready : ∀ j, s.consumers j = .ready → entries .head ≠ []
  unused : IsEmpty P → entries .head = []
  unfreed : IsEmpty C → entries .freelist = []

/-- No threads on one of the sides, or one thread on each. -/
def Few (P C : Type*) : Prop := IsEmpty P ∨ IsEmpty C ∨ Subsingleton P ∧ Subsingleton C

theorem Few.producer (h : Few P C) [Nonempty C] (i k : P) : k = i := by
  rcases h with h | h | h
  · exact h.elim i
  · exact (not_isEmpty_of_nonempty C h).elim
  · exact h.1.elim k i

theorem Few.consumer (h : Few P C) [Nonempty P] (j k : C) : k = j := by
  rcases h with h | h | h
  · exact (not_isEmpty_of_nonempty P h).elim
  · exact h.elim j
  · exact h.2.elim k j

variable {s t : State P C} {entries : Anchor → List Address} {i : P} {j : C} {e : Address}

theorem holding_of_producer {data : ℕ} (hi : s.producers i = .holds data e) :
    s.holding (.inl i) = some e := congrArg Producer.entry hi

theorem holding_of_consumer (hj : s.consumers j = .holds e) : s.holding (.inr j) = some e :=
  congrArg Consumer.entry hj

/-- What is taken is what the threads hold, with the messages of the queue. -/
theorem taken_eq : (view s entries).taken = fun k => (s.holding (.inr k)).map s.queue.message := rfl

section Holding

variable {T : Type*} [DecidableEq T] {holding : T → Option Address} {t : T} {e : Address}

theorem update_none (ht : holding t = none) : Function.update holding t none = holding := by
  rw [← ht, Function.update_eq_self]

theorem used_acquire (ht : holding t = none) :
    used (Function.update holding t (some e)) = insert e (used holding) := by
  ext x
  rw [Set.mem_insert_iff]
  constructor
  · rintro ⟨u, hu⟩
    by_cases hut : u = t
    · rw [hut, Function.update_self] at hu
      exact .inl (Option.some.inj hu).symm
    · rw [Function.update_of_ne hut] at hu
      exact .inr ⟨u, hu⟩
  · rintro (rfl | ⟨u, hu⟩)
    · exact ⟨t, Function.update_self ..⟩
    · have hut : u ≠ t := by
        rintro rfl
        exact absurd (ht.symm.trans hu) nofun
      exact ⟨u, by rwa [Function.update_of_ne hut]⟩

theorem used_release (ha : Apart holding) (ht : holding t = some e) :
    used (Function.update holding t none) = used holding \ {e} := by
  ext x
  rw [Set.mem_sdiff, Set.mem_singleton_iff]
  constructor
  · rintro ⟨u, hu⟩
    by_cases hut : u = t
    · rw [hut, Function.update_self] at hu
      cases hu
    · rw [Function.update_of_ne hut] at hu
      exact ⟨⟨u, hu⟩, fun hx => hut (ha u t e (hx ▸ hu) ht)⟩
  · rintro ⟨⟨u, hu⟩, hx⟩
    have hut : u ≠ t := by
      rintro rfl
      exact hx (Option.some.inj (hu.symm.trans ht))
    exact ⟨u, by rwa [Function.update_of_ne hut]⟩

theorem Apart.acquire (ha : Apart holding) (he : e ∉ used holding) :
    Apart (Function.update holding t (some e)) := by
  intro u v x hu hv
  by_cases hut : u = t <;> by_cases hvt : v = t
  · exact hut.trans hvt.symm
  · rw [hut, Function.update_self] at hu
    rw [Function.update_of_ne hvt, ← hu] at hv
    exact absurd ⟨v, hv⟩ he
  · rw [hvt, Function.update_self] at hv
    rw [Function.update_of_ne hut, ← hv] at hu
    exact absurd ⟨u, hu⟩ he
  · rw [Function.update_of_ne hut] at hu
    rw [Function.update_of_ne hvt] at hv
    exact ha u v x hu hv

theorem Apart.release (ha : Apart holding) : Apart (Function.update holding t none) := by
  have hne {u : T} {x : Address} (hu : Function.update holding t none u = some x) :
      holding u = some x := by
    by_cases hut : u = t
    · rw [hut, Function.update_self] at hu
      cases hu
    · rwa [Function.update_of_ne hut] at hu
  exact fun u v x hu hv => ha u v x (hne hu) (hne hv)

end Holding

variable [DecidableEq P] [DecidableEq C]

/-! What is done under one lock, or with one look at a ring. -/

namespace State

/-- `allocate` looks at the list of free entries. -/
def test (i : P) (data : ℕ) (s : State P C) : State P C :=
  { s with
    producers := Function.update s.producers i
      (.decided data (s.queue.isEmpty (.anchor .freelist))) }

/-- `allocate` goes by what it has seen. -/
def take (i : P) (data : ℕ) (empty : Bool) (s : State P C) : State P C :=
  let (entry, queue) := s.queue.take empty data
  { s with queue, producers := Function.update s.producers i (.holds data entry) }

/-- `enqueue` inserts the entry. -/
def insert (i : P) (e : Address) (s : State P C) : State P C :=
  { s with
    queue := s.queue.insert (.anchor .head) e
    producers := Function.update s.producers i .idle }

/-- `wait` returns. -/
def wait (j : C) (s : State P C) : State P C :=
  { s with consumers := Function.update s.consumers j .ready }

/-- `dequeue` removes an entry. -/
def remove (j : C) (s : State P C) : State P C :=
  let (entry, queue) := s.queue.remove (.anchor .head)
  { s with queue, consumers := Function.update s.consumers j (.holds entry) }

/-- `dequeue` returns the message, and the entry is free. -/
def free (j : C) (e : Address) (s : State P C) : State P C :=
  { s with
    queue := s.queue.insert (.anchor .freelist) e
    consumers := Function.update s.consumers j .idle }

end State

inductive Step : State P C → Event P C → State P C → Prop
  | test {s : State P C} {i : P} (data : ℕ) : s.producers i = .idle →
      Step s (.test i data) (s.test i data)
  | take {s : State P C} {i : P} {data : ℕ} {empty : Bool} : s.producers i = .decided data empty →
      Step s (.take i) (s.take i data empty)
  | insert {s : State P C} {i : P} {data : ℕ} {e : Address} : s.producers i = .holds data e →
      Step s (.insert i data) (s.insert i e)
  | wait {s : State P C} {j : C} : s.consumers j = .idle →
      s.queue.isEmpty (.anchor .head) = false → Step s (.wait j) (s.wait j)
  | remove {s : State P C} {j : C} : s.consumers j = .ready → Step s (.remove j) (s.remove j)
  | free {s : State P C} {j : C} {e : Address} : s.consumers j = .holds e →
      Step s (.free j (s.queue.message e)) (s.free j e)

theorem update_cases {α β : Type*} [DecidableEq α] {f : α → β} {a b : α} {x y : β}
    (h : Function.update f a x b = y) : b = a ∧ x = y ∨ b ≠ a ∧ f b = y := by
  by_cases hb : b = a
  · rw [hb, Function.update_self] at h
    exact .inl ⟨hb, h⟩
  · rw [Function.update_of_ne hb] at h
    exact .inr ⟨hb, h⟩

theorem holding_producer (s : State P C) (i : P) (p : Producer) (q : Queue) :
    State.holding { s with queue := q, producers := Function.update s.producers i p } =
      Function.update s.holding (.inl i) p.entry := by
  rw [State.holding, Function.comp_update, State.holding, Sum.update_elim_inl]

theorem holding_consumer (s : State P C) (j : C) (c : Consumer) (q : Queue) :
    State.holding { s with queue := q, consumers := Function.update s.consumers j c } =
      Function.update s.holding (.inr j) c.entry := by
  rw [State.holding, Function.comp_update, State.holding, Sum.update_elim_inr]

/-- The steps of a queue that nothing can happen to in the middle of a call. -/
inductive View.Step : View C → Event P C → View C → Prop
  | test {v : View C} (i : P) (data : ℕ) : Step v (.test i data) v
  | take {v : View C} (i : P) : Step v (.take i) v
  | insert {v : View C} (i : P) (data : ℕ) :
      Step v (.insert i data) { v with waiting := v.waiting ++ [data] }
  | wait {v : View C} (j : C) : v.waiting ≠ [] → Step v (.wait j) v
  | remove {v : View C} {j : C} {data : ℕ} {rest : List ℕ} : v.waiting = data :: rest →
      v.taken j = none → Step v (.remove j) ⟨rest, Function.update v.taken j (some data)⟩
  | free {v : View C} {j : C} {data : ℕ} : v.taken j = some data →
      Step v (.free j data) { v with taken := Function.update v.taken j none }

section Steps

variable {data : ℕ} {empty : Bool}

theorem Safe.test (h : Safe s entries) (hi : s.producers i = .idle) (data : ℕ) :
    Safe (s.test i data) entries := by
  have hnone : s.holding (.inl i) = none := congrArg Producer.entry hi
  have hholding : (s.test i data).holding = s.holding :=
    (holding_producer s i _ s.queue).trans (update_none hnone)
  refine ⟨?_, ?_, fun k d e hk => ?_, fun k d hk => ?_, h.ready, h.unused, h.unfreed⟩
  · rw [hholding]
    exact h.represents
  · rw [hholding]
    exact h.apart
  · rcases update_cases hk with ⟨-, hk⟩ | ⟨-, hk⟩
    · cases hk
    · exact h.filled k d e hk
  · rcases update_cases hk with ⟨-, hk⟩ | ⟨-, hk⟩
    · intro hf
      rw [h.represents.isEmpty.mpr hf] at hk
      cases hk
    · exact h.decided k d hk

omit [DecidableEq C] in
theorem take_eq : s.take i data empty = ⟨(s.queue.take empty data).2,
    Function.update s.producers i (.holds data (s.queue.take empty data).1), s.consumers⟩ := rfl

/-- A producer comes by an entry that is not among the messages, and sets its message. -/
theorem Safe.acquire (h : Safe s entries) {q : Queue} {entries' : Anchor → List Address}
    (hi : s.producers i = .decided data empty)
    (hr : Represents q entries' (insert e (used s.holding))) (he : e ∉ used s.holding)
    (hhead : entries' .head = entries .head)
    (hmessage : q.message = Function.update s.queue.message e data)
    (hdecided : ∀ k d, k ≠ i → s.producers k = .decided d false → entries' .freelist ≠ [])
    (hunfreed : IsEmpty C → entries' .freelist = []) :
    let t : State P C := ⟨q, Function.update s.producers i (.holds data e), s.consumers⟩
    Safe t entries' ∧ view t entries' = view s entries := by
  have hnone : s.holding (.inl i) = none := congrArg Producer.entry hi
  have hholding := holding_producer s i (.holds data e) q
  rw [Producer.entry] at hholding
  have hother {x : Address} (hx : x ≠ e) : q.message x = s.queue.message x := by
    rw [hmessage, Function.update_of_ne hx]
  have hmem {x : Address} (hx : x ∈ entries .head) : x ≠ e := by
    rintro rfl
    exact hr.unused .head x (hhead ▸ hx) (Set.mem_insert _ _)
  refine ⟨⟨?_, ?_, fun k d x hk => ?_, fun k d hk => ?_, hhead ▸ h.ready, hhead ▸ h.unused,
    hunfreed⟩, ?_⟩
  · rw [hholding, used_acquire hnone]
    exact hr
  · rw [hholding]
    exact h.apart.acquire he
  · rcases update_cases hk with ⟨-, hk⟩ | ⟨-, hk⟩
    · cases hk
      change q.message e = data
      rw [hmessage, Function.update_self]
    · have hx : x ≠ e := fun hc => he ⟨.inl k, hc ▸ holding_of_producer hk⟩
      exact (hother hx).trans (h.filled k d x hk)
  · rcases update_cases hk with ⟨-, hk⟩ | ⟨hne, hk⟩
    · cases hk
    · exact hdecided k d hne hk
  · refine View.ext ?_ (funext fun k => ?_)
    · change (entries' .head).reverse.map q.message = _
      rw [hhead]
      exact List.map_congr_left fun x hx => hother (hmem (List.mem_reverse.mp hx))
    · change (s.consumers k).entry.map q.message = (s.consumers k).entry.map s.queue.message
      refine Option.map_congr fun x hx => hother ?_
      rintro rfl
      exact he ⟨.inr k, hx⟩

theorem Safe.take (h : Safe s entries) (hfew : Few P C)
    (hi : s.producers i = .decided data empty) :
    ∃ entries', Safe (s.take i data empty) entries' ∧
      view (s.take i data empty) entries' = view s entries := by
  cases empty with
  | true =>
    obtain ⟨hr, hmessage, -⟩ := h.represents.take_true data
    refine ⟨entries, h.acquire hi hr ?_ rfl hmessage (fun k d _ => h.decided k d) h.unfreed⟩
    intro hu
    obtain ⟨n, hn, hb⟩ := (h.represents.all _).mp (.inl hu)
    exact Nat.ne_of_gt hn (Address.block.inj hb)
  | false =>
    have hne := h.decided i data hi
    rcases List.eq_nil_or_concat (entries .freelist) with hf | ⟨l, e, hf⟩
    · exact absurd hf hne
    rw [List.concat_eq_append] at hf
    obtain ⟨he, hr, hmessage, -⟩ := h.represents.take_false hf data
    have hmem : e ∈ entries .freelist := by simp [hf]
    have hC : Nonempty C := by
      by_contra hc
      exact hne (h.unfreed (not_nonempty_iff.mp hc))
    rw [take_eq, he]
    refine ⟨_, h.acquire hi hr (h.represents.unused _ e hmem) ?_ hmessage ?_ ?_⟩
    · exact Function.update_of_ne head_ne_freelist ..
    · exact fun k d hk => absurd (hfew.producer i k) hk
    · exact fun hc => (not_isEmpty_of_nonempty C hc).elim

theorem contents_cons {q : Queue} {ls : List Address} :
    contents q (e :: ls) = contents q ls ++ [q.message e] := by
  simp [contents]

theorem contents_snoc {q : Queue} {ls : List Address} :
    contents q (ls ++ [e]) = q.message e :: contents q ls := by
  simp [contents]

theorem Safe.insert (h : Safe s entries) (hi : s.producers i = .holds data e) :
    Safe (s.insert i e) (Function.update entries .head (e :: entries .head)) ∧
      (view (s.insert i e) (Function.update entries .head (e :: entries .head))) =
        { view s entries with waiting := (view s entries).waiting ++ [data] } := by
  have hsome := holding_of_producer hi
  have hr := h.represents.insert ⟨_, hsome⟩ .head
  have hholding : (s.insert i e).holding = Function.update s.holding (.inl i) none :=
    holding_producer s i .idle _
  refine ⟨⟨?_, ?_, fun k d x hk => ?_, fun k d hk => ?_, fun k _ => ?_, fun hP => ?_, ?_⟩, ?_⟩
  · rw [hholding, used_release h.apart hsome]
    exact hr
  · rw [hholding]
    exact h.apart.release
  · rcases update_cases hk with ⟨-, hk⟩ | ⟨-, hk⟩
    · cases hk
    · exact h.filled k d x hk
  · rcases update_cases hk with ⟨-, hk⟩ | ⟨-, hk⟩
    · cases hk
    · exact h.decided k d hk
  · rw [Function.update_self]
    exact List.cons_ne_nil _ _
  · exact hP.elim i
  · exact h.unfreed
  · refine View.ext ?_ rfl
    change contents s.queue _ = contents s.queue _ ++ [data]
    rw [Function.update_self, contents_cons, h.filled i data e hi]

theorem taken_update (m : Address → ℕ) (x : Option Address) :
    (fun k => (Function.update s.holding (.inr j) x (.inr k)).map m) =
      Function.update (fun k => (s.holding (.inr k)).map m) j (x.map m) := by
  funext k
  by_cases hk : k = j
  · rw [hk, Function.update_self, Function.update_self]
  · have hne : (Sum.inr k : P ⊕ C) ≠ .inr j := fun h => hk (Sum.inr.inj h)
    rw [Function.update_of_ne hk, Function.update_of_ne hne]

theorem Safe.wait (h : Safe s entries) (hj : s.consumers j = .idle)
    (hhead : s.queue.isEmpty (.anchor .head) = false) :
    Safe (s.wait j) entries ∧ view (s.wait j) entries = view s entries ∧
      (view s entries).waiting ≠ [] := by
  have hnone : s.holding (.inr j) = none := congrArg Consumer.entry hj
  have hne : entries .head ≠ [] := fun hl => by
    rw [h.represents.isEmpty.mpr hl] at hhead
    cases hhead
  have hholding : (s.wait j).holding = s.holding :=
    (holding_consumer s j .ready s.queue).trans (update_none hnone)
  refine ⟨⟨?_, ?_, h.filled, h.decided, fun _ _ => hne, h.unused, h.unfreed⟩, ?_, ?_⟩
  · rw [hholding]
    exact h.represents
  · rw [hholding]
    exact h.apart
  · refine View.ext rfl ?_
    rw [taken_eq, hholding]
    rfl
  · simpa [view, contents] using hne

theorem Safe.remove (h : Safe s entries) (hfew : Few P C) (hj : s.consumers j = .ready) :
    ∃ entries' data rest, Safe (s.remove j) entries' ∧ view (s.remove j) entries' =
        ⟨rest, Function.update (view s entries).taken j (some data)⟩ ∧
      (view s entries).waiting = data :: rest ∧ (view s entries).taken j = none := by
  have hne := h.ready j hj
  have hnone : s.holding (.inr j) = none := congrArg Consumer.entry hj
  have hP : Nonempty P := by
    by_contra hc
    exact hne (h.unused (not_nonempty_iff.mp hc))
  rcases List.eq_nil_or_concat (entries .head) with hl | ⟨l, e, hl⟩
  · exact absurd hl hne
  rw [List.concat_eq_append] at hl
  have hmem : e ∈ entries .head := by simp [hl]
  obtain ⟨he, hr⟩ := h.represents.remove hl
  have hholding : (s.remove j).holding = Function.update s.holding (.inr j) (some e) := by
    rw [← he]
    exact holding_consumer s j _ _
  refine ⟨Function.update entries .head l, s.queue.message e, contents s.queue l,
    ⟨?_, ?_, h.filled, h.decided, fun k hk => ?_, fun hc => ?_, h.unfreed⟩, ?_, ?_, ?_⟩
  · rw [hholding, used_acquire hnone]
    exact hr
  · rw [hholding]
    exact h.apart.acquire (h.represents.unused _ e hmem)
  · rcases update_cases hk with ⟨-, hk⟩ | ⟨hkj, -⟩
    · cases hk
    · exact absurd (hfew.consumer j k) hkj
  · exact (not_isEmpty_of_nonempty P hc).elim
  · refine View.ext ?_ ?_
    · change contents s.queue _ = _
      rw [Function.update_self]
    · rw [taken_eq, hholding, taken_update]
      rfl
  · change contents s.queue _ = _
    rw [hl, contents_snoc]
  · exact congrArg (Option.map s.queue.message) hnone

theorem Safe.free (h : Safe s entries) (hj : s.consumers j = .holds e) :
    Safe (s.free j e) (Function.update entries .freelist (e :: entries .freelist)) ∧
      view (s.free j e) (Function.update entries .freelist (e :: entries .freelist)) =
        { view s entries with taken := Function.update (view s entries).taken j none } ∧
      (view s entries).taken j = some (s.queue.message e) := by
  have hsome := holding_of_consumer hj
  have hr := h.represents.insert ⟨_, hsome⟩ .freelist
  have hholding : (s.free j e).holding = Function.update s.holding (.inr j) none :=
    holding_consumer s j .idle _
  refine ⟨⟨?_, ?_, h.filled, fun k d hk => ?_, fun k hk => ?_, h.unused, fun hc => ?_⟩, ?_, ?_⟩
  · rw [hholding, used_release h.apart hsome]
    exact hr
  · rw [hholding]
    exact h.apart.release
  · rw [Function.update_self]
    exact List.cons_ne_nil _ _
  · rcases update_cases hk with ⟨-, hk⟩ | ⟨-, hk⟩
    · cases hk
    · exact h.ready k hk
  · exact hc.elim j
  · refine View.ext rfl ?_
    rw [taken_eq, hholding, taken_update]
    rfl
  · exact congrArg (Option.map s.queue.message) hsome

end Steps

/-! ### Runs -/

/-- Each step is one of the queue that nothing can happen to in the middle of a call. -/
theorem Safe.step (h : Safe s entries) (hfew : Few P C) {event : Event P C}
    (hs : Step s event t) :
    ∃ entries', Safe t entries' ∧ View.Step (view s entries) event (view t entries') := by
  cases hs with
  | test data hi => exact ⟨entries, h.test hi data, .test _ _⟩
  | take hi =>
    obtain ⟨entries', h', hview⟩ := h.take hfew hi
    exact ⟨entries', h', hview ▸ .take _⟩
  | insert hi =>
    obtain ⟨h', hview⟩ := h.insert hi
    exact ⟨_, h', hview ▸ .insert _ _⟩
  | wait hj hhead =>
    obtain ⟨h', hview, hne⟩ := h.wait hj hhead
    exact ⟨_, h', hview ▸ .wait _ hne⟩
  | remove hj =>
    obtain ⟨entries', data, rest, h', hview, hwaiting, hnone⟩ := h.remove hfew hj
    exact ⟨entries', h', hview ▸ .remove hwaiting hnone⟩
  | free hj =>
    obtain ⟨h', hview, hsome⟩ := h.free hj
    exact ⟨_, h', hview ▸ .free hsome⟩

omit [DecidableEq P] [DecidableEq C] in
theorem holding_start (x : P ⊕ C) : (start P C).holding x = none := by
  cases x <;> rfl

omit [DecidableEq P] [DecidableEq C] in
theorem safe_start : Safe (start P C) fun _ => [] := by
  have hused : used (start P C).holding = ∅ := by
    refine Set.eq_empty_of_forall_notMem ?_
    rintro e ⟨x, hx⟩
    exact absurd ((holding_start x).symm.trans hx) nofun
  refine ⟨hused ▸ represents_new, fun x _ _ hx => ?_, nofun, nofun, nofun, fun _ => rfl,
    fun _ => rfl⟩
  exact absurd ((holding_start x).symm.trans hx) nofun

/-- The queue before anything was done. -/
def View.empty : View C := ⟨[], fun _ => none⟩

/-- Whatever the order of the steps is, to those who use it the queue is one that nothing can
happen to in the middle of a call. -/
theorem simulation (hfew : Few P C) {h : List (State P C × Event P C)}
    (hr : Run Step (start P C) h s) :
    ∃ entries h', Safe s entries ∧ Run View.Step .empty h' (view s entries) ∧
      h'.map Prod.snd = h.map Prod.snd := by
  induction hr with
  | start => exact ⟨_, [], safe_start, .start, rfl⟩
  | next _ hs ih =>
    obtain ⟨entries, h', hsafe, hrun, hmap⟩ := ih
    obtain ⟨entries', hsafe', hstep⟩ := hsafe.step hfew hs
    exact ⟨entries', _, hsafe', .next hrun hstep, by simp [hmap]⟩

omit [DecidableEq C] in
theorem enqueue_state (hi : s.producers i = .idle) (data : ℕ) :
    let t := (s.test i data).take i data (s.queue.isEmpty (.anchor .freelist))
    t.insert i (s.queue.allocate data).1 = { s with queue := s.queue.enqueue data } := by
  simp only [State.insert, State.take, State.test, Function.update_idem, ← hi,
    Function.update_eq_self]
  rfl

/-- `enqueue`, while no other thread does anything. -/
theorem reachable_enqueue (hr : Reachable Step (start P C) s) (hi : s.producers i = .idle)
    (data : ℕ) :
    Reachable Step (start P C) { s with queue := s.queue.enqueue data } := by
  have h := (hr.next (.test data hi)).next (.take (Function.update_self ..))
  exact enqueue_state hi data ▸ h.next (.insert (Function.update_self ..))

omit [DecidableEq P] in
theorem dequeue_state (hj : s.consumers j = .idle) :
    ((s.wait j).remove j).free j (s.queue.remove (.anchor .head)).1 =
      { s with queue := s.queue.dequeue.2 } := by
  simp only [State.free, State.remove, State.wait, Function.update_idem, ← hj,
    Function.update_eq_self]
  rfl

/-- `wait` and `dequeue`, while no other thread does anything. -/
theorem reachable_dequeue (hr : Reachable Step (start P C) s) (hj : s.consumers j = .idle)
    (hne : s.queue.isEmpty (.anchor .head) = false) :
    Reachable Step (start P C) { s with queue := s.queue.dequeue.2 } := by
  have h := (hr.next (.wait hj hne)).next (.remove (Function.update_self ..))
  exact dequeue_state hj ▸ h.next (.free (Function.update_self ..))

omit [DecidableEq P] [DecidableEq C] in
/-- A thread that has one of the entries in the queue itself. -/
theorem not_sound {x : P ⊕ C} {a : Anchor} (h : s.holding x = some (.anchor a)) : ¬ Sound s :=
  fun ⟨_, hr, _⟩ => hr.used_ne_anchor ⟨x, h⟩ rfl

/-- Two threads that dequeue have both seen the only message. -/
theorem unsound_of_consumers (i : P) {j k : C} (hjk : j ≠ k) :
    ∃ s, Reachable Step (start P C) s ∧ ¬ Sound s := by
  have h : Reachable Step (start P C) _ := reachable_enqueue ⟨[], .start⟩ (i := i) rfl 0
  have h := h.next (.wait (j := j) rfl rfl)
  have h := h.next (.wait (j := k) (Function.update_of_ne hjk.symm ..) rfl)
  have h := h.next (.remove (j := j)
    ((Function.update_of_ne hjk ..).trans (Function.update_self ..)))
  have h := h.next (.remove (j := k)
    ((Function.update_of_ne hjk.symm ..).trans (Function.update_self ..)))
  refine ⟨_, h, not_sound (x := .inr k) (a := .head) ?_⟩
  refine (congrArg Consumer.entry (Function.update_self ..)).trans ?_
  rfl

/-- Two threads that enqueue have both seen the only free entry. -/
theorem unsound_of_producers {i k : P} (hik : i ≠ k) (j : C) :
    ∃ s, Reachable Step (start P C) s ∧ ¬ Sound s := by
  have h : Reachable Step (start P C) _ := reachable_enqueue ⟨[], .start⟩ (i := i) rfl 0
  have h := reachable_dequeue h (j := j) rfl rfl
  have h := h.next (.test (i := i) 0 rfl)
  have h := h.next (.test (i := k) 0 (Function.update_of_ne hik.symm ..))
  have h := h.next (.take (i := i)
    ((Function.update_of_ne hik ..).trans (Function.update_self ..)))
  have h := h.next (.take (i := k)
    ((Function.update_of_ne hik.symm ..).trans (Function.update_self ..)))
  refine ⟨_, h, not_sound (x := .inl k) (a := .freelist) ?_⟩
  refine (congrArg Producer.entry (Function.update_self ..)).trans ?_
  rfl

/-- The rings stay what they are, whatever the order of the steps, if and only if there is one
thread at most on either side of the queue, or none on one of them. -/
theorem sound_iff (P C : Type*) [DecidableEq P] [DecidableEq C] :
    (∀ s, Reachable Step (start P C) s → Sound s) ↔ Few P C := by
  constructor
  · intro hall
    by_contra hfew
    simp only [Few, not_or, not_isEmpty_iff, not_and_or, not_subsingleton_iff_nontrivial] at hfew
    obtain ⟨⟨i⟩, ⟨j⟩, ⟨i, k, hik⟩ | ⟨j, k, hjk⟩⟩ := hfew
    · obtain ⟨s, hs, hn⟩ := unsound_of_producers hik j
      exact hn (hall s hs)
    · obtain ⟨s, hs, hn⟩ := unsound_of_consumers i hjk
      exact hn (hall s hs)
  · rintro hfew s ⟨h, hr⟩
    obtain ⟨entries, -, hsafe, -⟩ := simulation hfew hr
    exact ⟨entries, hsafe.represents, hsafe.apart⟩

/-! ### Order -/

def freed : Event P C → Option ℕ
  | .free _ data => some data
  | _ => none

/-- The message that is out of the queue and not yet returned, if there is one. -/
def View.Between (v : View C) (out : List ℕ) : Prop :=
  out = [] ∧ (∀ j, v.taken j = none) ∨ ∃ j data, out = [data] ∧ v.taken j = some data

end Redx.Thread.Parallel
