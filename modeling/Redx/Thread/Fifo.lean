import Redx.Thread.Queue
import Redx.Library.Peak

/-!
# First in, first out

As long as nothing is taken out of an empty queue, the messages come out in the order in which
they went in, and there are as many entries as there were messages at once. Taking one out of an
empty queue joins its two rings.
-/
namespace Redx.Thread
open Library

/-- A call, with the message that goes in or comes out. -/
inductive Event where
  | enqueue (data : ℕ)
  | dequeue (data : ℕ)
  deriving DecidableEq, Repr

/-- Calls one after the other, where a message is there for each that is taken out. -/
inductive Step : Queue → Event → Queue → Prop
  | enqueue {q : Queue} (data : ℕ) : Step q (.enqueue data) (q.enqueue data)
  | dequeue {q : Queue} : q.isEmpty (.anchor .head) = false →
      Step q (.dequeue q.dequeue.1) q.dequeue.2

def enqueued : Event → Option ℕ
  | .enqueue data => some data
  | .dequeue _ => none

def dequeued : Event → Option ℕ
  | .enqueue _ => none
  | .dequeue data => some data

/-- The messages of a history, in the order of the calls. -/
def messages {σ ε : Type*} (which : ε → Option ℕ) (h : List (σ × ε)) : List ℕ :=
  h.filterMap fun x => which x.2

theorem messages_append {σ ε : Type*} {which : ε → Option ℕ} {h : List (σ × ε)} {s : σ} {e : ε} :
    messages which (h ++ [(s, e)]) = messages which h ++ (which e).toList := by
  rw [messages, List.filterMap_append, messages]
  cases he : which e <;> simp [he]

variable {q : Queue} {entries : Anchor → List Address} {h : List (Queue × Event)} {data : ℕ}

/-- The messages in the queue, the oldest first. -/
def contents (q : Queue) (ls : List Address) : List ℕ := ls.reverse.map q.message

/-- Between calls no entry is in use, and those in the queue itself have no message. -/
structure Between (q : Queue) (entries : Anchor → List Address) : Prop where
  represents : Represents q entries ∅
  null : ∀ a, q.message (.anchor a) = 0

/-- The entries are those from `new`, each once. -/
theorem Between.length (h : Between q entries) :
    (entries .head).length + (entries .freelist).length = q.blocks := by
  have hr := h.represents
  have hnd : (entries .head ++ entries .freelist).Nodup := by
    refine List.Nodup.append (List.nodup_cons.mp (hr.ring .head).nodup).2
      (List.nodup_cons.mp (hr.ring .freelist).nodup).2 fun e he he' => ?_
    exact absurd (hr.apart .head .freelist e he he') nofun
  have hrange : ((List.range q.blocks).map Address.block).Nodup :=
    List.nodup_range.map fun _ _ h => Address.block.inj h
  have hperm : (entries .head ++ entries .freelist).Perm
      ((List.range q.blocks).map Address.block) := by
    refine (List.perm_ext_iff_of_nodup hnd hrange).mpr fun e => ?_
    rw [List.mem_append, List.mem_map]
    constructor
    · intro he
      obtain ⟨n, hn, rfl⟩ := (hr.all e).mp (.inr (he.elim (⟨_, ·⟩) (⟨_, ·⟩)))
      exact ⟨n, List.mem_range.mpr hn, rfl⟩
    · rintro ⟨n, hn, rfl⟩
      obtain he | ⟨a, ha⟩ := (hr.all _).mpr ⟨n, List.mem_range.mp hn, rfl⟩
      · exact absurd he (Set.notMem_empty _)
      · cases a
        · exact .inl ha
        · exact .inr ha
  have := hperm.length_eq
  rwa [List.length_append, List.length_map, List.length_range] at this

/-- The messages of entries that a new one is not among. -/
theorem contents_update {e : Address} {ls : List Address} (he : e ∉ ls) {q' : Queue}
    (hmessage : q'.message = Function.update q.message e data) :
    contents q' (e :: ls) = contents q ls ++ [data] := by
  have hls : ls.reverse.map q'.message = ls.reverse.map q.message := by
    refine List.map_congr_left fun x hx => ?_
    have hxe : x ≠ e := fun hc => he (hc ▸ List.mem_reverse.mp hx)
    rw [hmessage, Function.update_of_ne hxe]
  rw [contents, List.reverse_cons, List.map_append, hls, List.map_singleton, hmessage,
    Function.update_self, contents]

theorem enqueue_eq (q : Queue) (data : ℕ) : q.enqueue data =
    (q.allocate data).2.insert (.anchor .head) (q.allocate data).1 := rfl

/-- An entry that was made for the message goes behind the head. -/
theorem Between.push (h : Between q entries) {q' : Queue} {entries' : Anchor → List Address}
    {e : Address} (hr : Represents q' entries' (Insert.insert e ∅))
    (hhead : entries' .head = entries .head)
    (hmessage : q'.message = Function.update q.message e data) :
    Between (q'.insert (.anchor .head) e) (Function.update entries' .head (e :: entries .head)) ∧
      contents (q'.insert (.anchor .head) e) (e :: entries .head) =
        contents q (entries .head) ++ [data] := by
  have he : e ∉ Address.anchor .head :: entries' .head := hr.used_notMem (Set.mem_insert _ _)
  have hr' := hr.insert (Set.mem_insert _ _) .head
  rw [insert_sdiff (Set.notMem_empty _), hhead] at hr'
  rw [hhead, List.mem_cons, not_or] at he
  refine ⟨⟨hr', fun a => ?_⟩, contents_update he.2 hmessage⟩
  have hea : Address.anchor a ≠ e := (hr.used_ne_anchor (Set.mem_insert _ _)).symm
  exact (congrFun hmessage _).trans ((Function.update_of_ne hea ..).trans (h.null a))

theorem Between.enqueue (h : Between q entries) (data : ℕ) :
    ∃ entries', Between (q.enqueue data) entries' ∧
      contents (q.enqueue data) (entries' .head) = contents q (entries .head) ++ [data] ∧
      (entries' .head).length = (entries .head).length + 1 ∧
      (q.enqueue data).blocks = if entries .freelist = [] then q.blocks + 1 else q.blocks := by
  have hr := h.represents
  rw [enqueue_eq, Queue.allocate]
  rcases List.eq_nil_or_concat (entries .freelist) with hf | ⟨l, e, hf⟩
  · rw [hr.isEmpty.mpr hf, if_pos hf]
    obtain ⟨hr, hmessage, hblocks⟩ := hr.take_true data
    obtain ⟨hb, hc⟩ := h.push hr rfl hmessage
    refine ⟨_, hb, ?_, ?_, hblocks⟩ <;> rw [Function.update_self]
    · exact hc
    · rfl
  · rw [List.concat_eq_append] at hf
    have hne : entries .freelist ≠ [] := by simp [hf]
    rw [Bool.eq_false_iff.mpr (mt hr.isEmpty.mp hne), if_neg hne]
    obtain ⟨he, hr, hmessage, hblocks⟩ := hr.take_false hf data
    rw [he]
    obtain ⟨hb, hc⟩ := h.push hr (Function.update_of_ne head_ne_freelist ..) hmessage
    refine ⟨_, hb, ?_, ?_, hblocks⟩ <;> rw [Function.update_self]
    · exact hc
    · rfl

theorem dequeue_eq (q : Queue) : q.dequeue = (q.message (q.remove (.anchor .head)).1,
    (q.remove (.anchor .head)).2.insert (.anchor .freelist) (q.remove (.anchor .head)).1) := rfl

theorem Between.dequeue (h : Between q entries) {l : List Address} {e : Address}
    (hl : entries .head = l ++ [e]) :
    q.dequeue.1 = q.message e ∧ q.dequeue.2.message = q.message ∧
      q.dequeue.2.blocks = q.blocks ∧
      Between q.dequeue.2
        (Function.update (Function.update entries .head l) .freelist (e :: entries .freelist)) := by
  obtain ⟨he, hr⟩ := h.represents.remove hl
  have hr := hr.insert (Set.mem_insert _ _) .freelist
  rw [insert_sdiff (Set.notMem_empty _)] at hr
  rw [dequeue_eq, he]
  exact ⟨rfl, rfl, rfl, hr, h.null⟩

/-! ### Runs -/

theorem between_new : Between .new fun _ => [] := ⟨represents_new, fun _ => rfl⟩

/-- What was enqueued is what was dequeued, and then what the queue holds. -/
theorem between_of_run (hr : Run Step .new h q) :
    ∃ entries, Between q entries ∧
      messages enqueued h = messages dequeued h ++ contents q (entries .head) := by
  induction hr with
  | start => exact ⟨_, between_new, rfl⟩
  | next _ hs ih =>
    obtain ⟨entries, hb, hm⟩ := ih
    rw [messages_append, messages_append, hm]
    cases hs with
    | enqueue data =>
      obtain ⟨entries', hb', hc, -⟩ := hb.enqueue data
      exact ⟨entries', hb', by rw [hc]; simp [enqueued, dequeued]⟩
    | dequeue hne =>
      rcases List.eq_nil_or_concat (entries .head) with hl | ⟨l, e, hl⟩
      · exact absurd (hb.represents.isEmpty.mpr hl) (Bool.eq_false_iff.mp hne)
      · rw [List.concat_eq_append] at hl
        obtain ⟨hdata, hmessage, -, hb'⟩ := hb.dequeue hl
        refine ⟨_, hb', ?_⟩
        rw [Function.update_of_ne head_ne_freelist, Function.update_self, contents, contents,
          hmessage, hdata]
        simp [hl, enqueued, dequeued]

/-- The messages come out in the order in which they went in, and `depth` is how many are still
there. -/
theorem fifo (hr : Run Step .new h q) :
    ∃ waiting, messages enqueued h = messages dequeued h ++ waiting ∧
      ∀ steps, waiting.length < steps → q.depth steps = some waiting.length := by
  obtain ⟨entries, hb, hm⟩ := between_of_run hr
  refine ⟨_, hm, fun steps hn => ?_⟩
  rw [contents, List.length_map, List.length_reverse] at hn ⊢
  exact hb.represents.depth hn

/-- Two messages go in and one of them comes out. -/
def someCalls : List (Queue × Event) :=
  [(.new, .enqueue 5), (Queue.new.enqueue 5, .enqueue 7),
    ((Queue.new.enqueue 5).enqueue 7, .dequeue 5)]

theorem run_someCalls : Run Step .new someCalls ((Queue.new.enqueue 5).enqueue 7).dequeue.2 :=
  ((Run.start.next (.enqueue 5)).next (.enqueue 7)).next (.dequeue rfl)

theorem fifo_someCalls : ∃ waiting, messages enqueued someCalls =
    messages dequeued someCalls ++ waiting ∧ ∀ steps, waiting.length < steps →
      ((Queue.new.enqueue 5).enqueue 7).dequeue.2.depth steps = some waiting.length :=
  fifo run_someCalls

/-- `depth`, for which a walk over all entries is enough. -/
def waiting (q : Queue) : ℕ := (q.depth (q.blocks + 1)).getD 0

theorem Between.waiting (h : Between q entries) : waiting q = (entries .head).length := by
  have hlen := h.length
  rw [Thread.waiting, h.represents.depth (by omega)]
  rfl

/-- There are as many entries as there were messages in the queue at once: an entry is made only
when all the others hold a message. -/
theorem blocks_eq_peak (hr : Run Step .new h q) : q.blocks = peak waiting h q := by
  let I (q : Queue) (b : ℕ) : Prop := ∃ entries, Between q entries ∧ q.blocks = b
  obtain ⟨-, -, hblocks⟩ : I q ((peak waiting h q + 1 - 1) / 1) := by
    refine hr.blocks_eq Nat.one_pos ⟨_, between_new, rfl⟩ ?_ ?_
    · rintro s b ⟨entries, hb, rfl⟩
      rw [hb.waiting, ← hb.length]
      omega
    · rintro s e t b ⟨entries, hb, rfl⟩ hs
      have hlen := hb.length
      cases hs with
      | enqueue data =>
        obtain ⟨entries', hb', -, hhead, hblocks⟩ := hb.enqueue data
        split_ifs at hblocks with hf
        · refine .inr ⟨⟨entries', hb', hblocks⟩, ?_⟩
          rw [hf, List.length_nil] at hlen
          rw [hb'.waiting, hhead]
          omega
        · exact .inl ⟨entries', hb', hblocks⟩
      | dequeue hne =>
        rcases List.eq_nil_or_concat (entries .head) with hl | ⟨l, e, hl⟩
        · exact absurd (hb.represents.isEmpty.mpr hl) (Bool.eq_false_iff.mp hne)
        · rw [List.concat_eq_append] at hl
          obtain ⟨-, -, hblocks, hb'⟩ := hb.dequeue hl
          exact .inl ⟨_, hb', hblocks⟩
  rwa [Nat.add_sub_cancel, Nat.div_one] at hblocks

theorem blocks_someCalls : ((Queue.new.enqueue 5).enqueue 7).dequeue.2.blocks =
    peak waiting someCalls ((Queue.new.enqueue 5).enqueue 7).dequeue.2 :=
  blocks_eq_peak run_someCalls

/-- What is removed from a ring without entries is the anchor itself. -/
theorem remove_of_nil {a : Anchor} (h : Ring q.next q.previous (.anchor a) []) :
    q.remove (.anchor a) = (.anchor a, q) := by
  obtain ⟨hnext, hprevious⟩ := Ring.nil_iff.mp h
  have hp : Function.update q.previous (.anchor a) (.anchor a) = q.previous := by
    rw [Function.update_eq_iff]
    exact ⟨hprevious.symm, fun _ _ => rfl⟩
  have hn : Function.update q.next (.anchor a) (.anchor a) = q.next := by
    rw [Function.update_eq_iff]
    exact ⟨hnext.symm, fun _ _ => rfl⟩
  simp only [Queue.remove, hprevious, hp, hn]

/-- A message is taken out of an empty queue: the call returns the null pointer, and joins the
rings, so that all the free entries count as messages from then on. -/
theorem dequeue_empty (hr : Run Step .new h q) (hempty : q.isEmpty (.anchor .head) = true) :
    q.dequeue.1 = 0 ∧ q.dequeue.2.isEmpty (.anchor .head) = false ∧
      q.dequeue.2.depth (q.blocks + 2) = some (q.blocks + 1) := by
  obtain ⟨entries, hb, -⟩ := between_of_run hr
  have hl := hb.represents.isEmpty.mp hempty
  have hlen := hb.length
  rw [hl, List.length_nil, Nat.zero_add] at hlen
  have hhead : Address.anchor .head ∉ Address.anchor .freelist :: entries .freelist :=
    hb.represents.notMem head_ne_freelist List.mem_cons_self
  have hring := (hb.represents.ring .freelist).insert hhead
  rw [dequeue_eq, remove_of_nil (hl ▸ hb.represents.ring .head),
    insert_eq _ (fun hc => head_ne_freelist (Address.anchor.inj hc))]
  -- the head is now one of the free entries
  cases hring.path with
  | node hnext hprevious hpath =>
    have hround := path_snoc.mpr ⟨hpath, hnext, hprevious⟩
    have hnot : Address.anchor .head ∉ entries .freelist ++ [.anchor .freelist] := by
      rw [List.mem_append, List.mem_singleton, Or.comm, ← List.mem_cons]
      exact hhead
    refine ⟨hb.null _, decide_eq_false fun hc => hnot (hc ▸ hpath.next_mem List.mem_cons_self), ?_⟩
    rw [← hlen, ← List.length_singleton (a := Address.anchor .freelist), ← List.length_append]
    exact count_of_path hround hnot (by simp)

/-- Two messages went in and came out. -/
def emptied : Queue := ((Queue.new.enqueue 5).enqueue 7).dequeue.2.dequeue.2

theorem dequeue_emptied : emptied.dequeue.1 = 0 ∧
    emptied.dequeue.2.isEmpty (.anchor .head) = false ∧ emptied.dequeue.2.depth 4 = some 3 :=
  dequeue_empty (run_someCalls.next (.dequeue rfl)) rfl

end Redx.Thread
