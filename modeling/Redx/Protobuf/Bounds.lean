import Redx.Protobuf.Walk

/-!
# Bounds of the reads

Only the eight bytes of wire type 1 and the bytes of a chunk are checked against `remaining`. A
tag, a varint or the four bytes of wire type 5 may lie across the end of the chunk, and a
negative length may move the cursor before its start. The reads stay in bounds exactly when no
field that the parser comes to does one of these.
-/
namespace Redx.Protobuf

variable {memory : Memory} {state state' chunk : Buffer} {s t : Span}

/-- The byte at an address. -/
def Memory.byte (memory : Memory) (address : ℤ) : Option UInt8 := (memory.cells address).head?.join

/-- Every address of the span is mapped. -/
def Mapped (memory : Memory) (s : Span) : Prop :=
  ∀ a, s.base ≤ a → a < s.base + s.count → ∃ x, memory.byte a = some x

/-- One of the bytes that remain has its highest bit clear: a varint at the cursor ends there. -/
def Terminated (memory : Memory) (state : Buffer) : Prop :=
  ∃ i : ℕ, ∃ x, (i : ℤ) < state.remaining ∧ memory.byte (state.dot + i) = some x ∧ x &&& 0x80 = 0

/-- What the code does not check before it reads the payload. -/
def PayloadFits (memory : Memory) (state : Buffer) (wireType : ℕ) : Prop :=
  match wireType with
  | 0 | 2 => Terminated memory state
  | 5 => 4 ≤ state.remaining
  | _ => True

/-- The field at the cursor does not begin before its chunk, and its tag, its value or length and
its four bytes end in what remains of the chunk. -/
structure Complete (memory : Memory) (s : Span) (state : Buffer) : Prop where
  base_le : s.base ≤ state.dot
  tag : Terminated memory state
  payload : ∀ tag next, (readVarint memory state).result = some (tag, next) →
    PayloadFits memory next (wireType tag)

/-- From a buffer in the span `s` the passes lead to a buffer in the span `t`; each span is the
innermost chunk, or the file. -/
inductive Visits (memory : Memory) : Span → Buffer → Span → Buffer → Prop
  | here (s : Span) (state : Buffer) : Visits memory s state s state
  | continues {s t : Span} {state state' final : Buffer} : Continues memory state state' →
      Visits memory s state' t final → Visits memory s state t final
  | enters {s t : Span} {state chunk final : Buffer} : Enters memory state chunk →
      Visits memory chunk.span chunk t final → Visits memory s state t final

/-- The buffer belongs to the span: its `remaining` leads to the end of it, all of it is mapped. -/
structure Placed (memory : Memory) (s : Span) (state : Buffer) : Prop where
  count_lt : s.count < 2 ^ 31
  remaining_eq : state.remaining = narrow (s.base + s.count - state.dot)
  dot_le : state.dot ≤ s.base + s.count
  mapped : Mapped memory s

section Cells

theorem cells_of_byte {a : ℤ} {x : UInt8} (h : memory.byte a = some x) :
    memory.cells a = some x :: memory.cells (a + 1) := by
  unfold Memory.byte Memory.cells at *
  split at h
  · cases h
  · rename_i ha
    rw [if_neg ha, if_neg (by omega), show (a + 1).toNat = a.toNat + 1 by omega]
    cases hd : memory.drop a.toNat with
    | nil => rw [hd] at h; cases h
    | cons c rest =>
      rw [hd] at h
      obtain rfl : c = some x := by simpa using h
      rw [← List.drop_drop, hd, List.drop_one, List.tail_cons]

theorem varintLoop_of_none {a : ℤ} (h : memory.byte a = none) (shift : ℕ) (value : UInt64) :
    varintLoop (memory.cells a) shift value = (1, none) := by
  unfold Memory.byte at h
  match memory.cells a, h with
  | [], _ => rfl
  | none :: _, _ => rfl

/-- A varint ends at the first byte whose highest bit is clear, if not before. -/
theorem varintLoop_le_of_byte {a : ℤ} {i : ℕ} {x : UInt8} (hx : memory.byte (a + i) = some x)
    (hlast : x &&& 0x80 = 0) (shift : ℕ) (value : UInt64) :
    (varintLoop (memory.cells a) shift value).1 ≤ i + 1 := by
  induction i generalizing a shift value with
  | zero =>
    rw [cells_of_byte (by simpa using hx), varintLoop, if_pos hlast]
  | succ i ih =>
    cases hy : memory.byte a with
    | none => simp [varintLoop_of_none hy]
    | some y =>
      rw [cells_of_byte hy, varintLoop]
      split
      · simp
      · exact Nat.succ_le_succ (ih (by rwa [add_assoc, add_comm 1, ← Nat.cast_succ]) _ _)

/-- A varint all of whose bytes are mapped ends with a byte whose highest bit is clear. -/
theorem byte_of_varintLoop {a : ℤ} {n shift : ℕ} {value : UInt64}
    (hn : (varintLoop (memory.cells a) shift value).1 = n + 1)
    (hm : ∀ i : ℕ, i < n + 1 → ∃ x, memory.byte (a + i) = some x) :
    ∃ x, memory.byte (a + n) = some x ∧ x &&& 0x80 = 0 := by
  induction n generalizing a shift value with
  | zero =>
    obtain ⟨x, hx⟩ := hm 0 (by omega)
    rw [Nat.cast_zero, add_zero] at hx
    rw [cells_of_byte hx, varintLoop] at hn
    split at hn
    · exact ⟨x, by simpa using hx, ‹_›⟩
    · exact absurd (Nat.succ.inj hn) (Nat.one_le_iff_ne_zero.mp (varintLoop_le _ _ _))
  | succ n ih =>
    obtain ⟨x, hx⟩ := hm 0 (by omega)
    rw [Nat.cast_zero, add_zero] at hx
    rw [cells_of_byte hx, varintLoop] at hn
    split at hn
    · simp at hn
    · obtain ⟨y, hy⟩ := ih (Nat.succ.inj hn) fun i hi => by
        have := hm (i + 1) (by omega)
        rwa [Nat.cast_succ, add_comm (i : ℤ), ← add_assoc] at this
      rw [add_assoc, add_comm 1, ← Nat.cast_succ] at hy
      exact ⟨y, hy⟩

end Cells

section Pass

theorem Placed.remaining_of_le (h : Placed memory s state) (hbase : s.base ≤ state.dot) :
    state.remaining = s.base + s.count - state.dot := by
  have := h.count_lt
  have := h.dot_le
  rw [h.remaining_eq]
  exact narrow_eq_self (by omega) (by omega)

theorem Placed.increment (h : Placed memory s state) {n : ℤ}
    (hn : state.dot + n ≤ s.base + s.count) : Placed memory s (increment state n) where
  count_lt := h.count_lt
  remaining_eq := by
    simp only [Protobuf.increment, h.remaining_eq, narrow_narrow_sub]
    congr 1
    ring
  dot_le := hn
  mapped := h.mapped

/-- In a span that is mapped, the bytes of a varint lie in the span exactly when one of them ends
it there. -/
theorem Placed.varint_within_iff (h : Placed memory s state) (hbase : s.base ≤ state.dot) :
    (readVarint memory state).span.Within s ↔ Terminated memory state := by
  have hrem := h.remaining_of_le hbase
  constructor
  · rintro ⟨-, hend⟩
    obtain ⟨n, hn⟩ : ∃ n, (readVarint memory state).span.count = n + 1 :=
      ⟨_, (Nat.sub_add_cancel one_le_readVarint).symm⟩
    rw [hn] at hend
    have hdot : (readVarint memory state).span.base = state.dot := rfl
    obtain ⟨x, hx, hlast⟩ := byte_of_varintLoop hn fun i hi => h.mapped _ (by omega) (by omega)
    exact ⟨n, x, by omega, hx, hlast⟩
  · rintro ⟨i, x, hi, hx, hlast⟩
    have hle : (readVarint memory state).span.count ≤ i + 1 := varintLoop_le_of_byte hx hlast 0 0
    refine ⟨hbase, ?_⟩
    have hdot : (readVarint memory state).span.base = state.dot := rfl
    omega

/-- The buffer after a read in the span belongs to the span as well. -/
theorem Placed.after_read (h : Placed memory s state) {n : ℕ}
    (hw : Span.Within ⟨state.dot, n⟩ s) :
    Placed memory s (Protobuf.increment state n) ∧
      s.base ≤ (Protobuf.increment state n).dot := by
  have hbase : s.base ≤ state.dot := hw.1
  exact ⟨h.increment hw.2, by simp only [Protobuf.increment]; omega⟩

theorem Placed.dump_within (h : Placed memory s state) (hbase : s.base ≤ state.dot) {length : ℤ}
    (hle : length ≤ state.remaining) :
    (dump memory ⟨state.dot, length⟩).span.Within s := by
  have hrem := h.remaining_of_le hbase
  have hdot := h.dot_le
  have hcount : (dump memory ⟨state.dot, length⟩).span.count ≤ length.toNat := byteLoop_le _ _
  have heq : (dump memory ⟨state.dot, length⟩).span.base = state.dot := rfl
  exact ⟨hbase, by omega⟩

theorem Placed.lengthCase_within (h : Placed memory s state) (hbase : s.base ≤ state.dot)
    {value : UInt64} {span : Span} (hspan : span ∈ (lengthCase memory value state).reads) :
    span.Within s := by
  dsimp only [lengthCase] at hspan
  split at hspan
  · cases hspan
  · rename_i hle
    rw [Pass.reads_print, Reading.mem_reads_andThen] at hspan
    rcases hspan with rfl | ⟨bytes, c, -, hc⟩
    · exact h.dump_within hbase (not_lt.mp hle)
    · cases hc

/-- The reads of a payload stay in the span exactly when the payload fits where the code does not
check that it does. -/
theorem Placed.switch_within_iff (h : Placed memory s state) (hbase : s.base ≤ state.dot)
    (type : ℕ) :
    (∀ span ∈ (switch memory state type).reads, span.Within s) ↔
      PayloadFits memory state type := by
  have hrem := h.remaining_of_le hbase
  have hdot := h.dot_le
  unfold switch PayloadFits
  split
  · rw [← h.varint_within_iff hbase]
    simp [Reading.mem_reads_andThen]
  · split
    · simp
    · rename_i hfits
      simp only [Reading.mem_reads_andThen, iff_true]
      rintro span (rfl | ⟨value, next, -, hnext⟩)
      · exact ⟨hbase, by simp only [read64bit, readFixed]; omega⟩
      · cases hnext
  · rw [← h.varint_within_iff hbase]
    constructor
    · exact fun hw => hw _ Reading.span_mem
    · intro hw span hspan
      rcases Reading.mem_reads_andThen.mp hspan with rfl | ⟨value, next, hr, hnext⟩
      · exact hw
      · obtain ⟨rfl, -⟩ := readVarint_some hr
        obtain ⟨hp, hb⟩ := h.after_read hw
        exact hp.lengthCase_within hb hnext
  · simp
  · simp
  · simp only [Reading.mem_reads_andThen, List.not_mem_nil, and_false, exists_false, or_false,
      forall_eq, read32bit, readFixed, Span.Within]
    omega
  · simp

/-- The reads of a pass stay in the span exactly when the field is complete there. -/
theorem Placed.pass_within_iff (h : Placed memory s state) :
    (∀ span ∈ (pass memory state).reads, span.Within s) ↔ Complete memory s state := by
  constructor
  · intro hw
    have htag := hw _ (mem_reads_pass.mpr (.inl rfl))
    have hbase : s.base ≤ state.dot := htag.1
    refine ⟨hbase, (h.varint_within_iff hbase).mp htag, fun tag next hr => ?_⟩
    obtain ⟨rfl, -⟩ := readVarint_some hr
    obtain ⟨hp, hb⟩ := h.after_read htag
    exact (hp.switch_within_iff hb _).mp fun span hspan =>
      hw span (mem_reads_pass.mpr (.inr ⟨tag, _, hr, hspan⟩))
  · intro hc span hspan
    have htag := (h.varint_within_iff hc.base_le).mpr hc.tag
    rcases mem_reads_pass.mp hspan with rfl | ⟨tag, next, hr, hspan⟩
    · exact htag
    · have hfits := hc.payload tag next hr
      obtain ⟨rfl, -⟩ := readVarint_some hr
      obtain ⟨hp, hb⟩ := h.after_read htag
      exact (hp.switch_within_iff hb _).mpr hfits span hspan

/-- After a complete field the next pass is for a buffer in the same span. -/
theorem Placed.continues (h : Placed memory s state) (hc : Complete memory s state)
    (hnext : Continues memory state state') : Placed memory s state' := by
  have hw := h.pass_within_iff.mpr hc
  have hbase := hc.base_le
  rcases hnext with ⟨-, hcontrol⟩ | ⟨chunk, -, hcontrol, -⟩
  · obtain ⟨n, -, rfl, span, hspan, heq⟩ := pass_next hcontrol
    exact h.increment (heq ▸ (hw span hspan).2)
  · obtain ⟨n, x, -, ⟨span, hspan, heq⟩, -, hle, rfl⟩ := pass_chunk hcontrol
    have hp : Placed memory s (Protobuf.increment state n) := h.increment (heq ▸ (hw span hspan).2)
    have hrem := hp.remaining_of_le (by simp only [Protobuf.increment]; omega)
    refine h.increment ?_
    simp only [Protobuf.increment] at hrem hle
    omega

/-- The chunk of a complete field, when it is not empty, lies in the span, and it is a span that
its buffer belongs to. -/
theorem Placed.enters (h : Placed memory s state) (hc : Complete memory s state)
    (henter : Enters memory state chunk) (hne : notEmpty chunk) :
    Placed memory chunk.span chunk ∧ chunk.span.Within s := by
  have hw := h.pass_within_iff.mpr hc
  have hbase := hc.base_le
  have hcount := h.count_lt
  obtain ⟨-, state', hcontrol⟩ := henter
  obtain ⟨n, x, -, ⟨span, hspan, heq⟩, hchunk, hle, -⟩ := pass_chunk hcontrol
  have hp : Placed memory s (Protobuf.increment state n) := h.increment (heq ▸ (hw span hspan).2)
  have hrem := hp.remaining_of_le (by simp only [Protobuf.increment]; omega)
  have hdot : chunk.dot = state.dot + n := by rw [hchunk]
  have hwithin : chunk.span.Within s := by
    simp only [Span.Within, Buffer.span, notEmpty, Protobuf.increment] at *
    omega
  refine ⟨⟨?_, ?_, ?_, ?_⟩, hwithin⟩
  · simp only [Span.Within, Buffer.span] at *
    omega
  · have hlength : chunk.span.base + chunk.span.count - chunk.dot = chunk.remaining := by
      simp only [Buffer.span, notEmpty] at *
      omega
    have hint : chunk.remaining = narrow x := by rw [hchunk]
    rw [hlength, hint, narrow_eq_self (isInt_narrow x).1 (isInt_narrow x).2]
  · simp only [Buffer.span]
    omega
  · exact fun a ha hb => h.mapped a (hwithin.1.trans ha) (hb.trans_le hwithin.2)

end Pass

/-- The read lies in the span, and in every chunk it is made in. -/
def InBounds (s : Span) (r : Read) : Prop := r.span.Within s ∧ ∀ t ∈ r.chunks, r.span.Within t

theorem Span.Within.trans {u : Span} (h : s.Within t) (h' : t.Within u) : s.Within u :=
  ⟨h'.1.trans h.1, h.2.trans h'.2⟩

/-- While the fields are complete, the reads are in bounds. -/
theorem Reads.inBounds {r : Read} (hr : Reads memory state r) (hp : Placed memory s state)
    (hc : ∀ t final, Visits memory s state t final → notEmpty final → Complete memory t final) :
    InBounds s r := by
  induction hr generalizing s with
  | pass hs hspan =>
    refine ⟨hp.pass_within_iff.mpr (hc _ _ (.here _ _) hs) _ hspan, ?_⟩
    simp
  | @continues state state' r hnext _ ih =>
    have hs : notEmpty state := by cases hnext <;> assumption
    have hp' := hp.continues (hc _ _ (.here _ _) hs) hnext
    exact ih hp' fun t final hv => hc t final (.continues hnext hv)
  | @enters state chunk r henter hreads ih =>
    have hne : notEmpty chunk := by
      cases hreads with
      | pass hs => exact hs
      | continues hnext => cases hnext <;> assumption
      | enters henter => exact henter.1
    obtain ⟨hp', hwithin⟩ := hp.enters (hc _ _ (.here _ _) henter.1) henter hne
    obtain ⟨hspan, hchunks⟩ := ih hp' fun t final hv => hc t final (.enters henter hv)
    refine ⟨hspan.trans hwithin, ?_⟩
    simp only [List.mem_append, List.mem_singleton]
    rintro t (ht | rfl)
    · exact hchunks t ht
    · exact hspan

/-- While the reads are in bounds, the fields are complete. -/
theorem Visits.complete {final : Buffer} (hv : Visits memory s state t final)
    (hp : Placed memory s state) (hr : ∀ r, Reads memory state r → InBounds s r)
    (hne : notEmpty final) : Complete memory t final := by
  have hcomplete {s : Span} {state : Buffer} (hp : Placed memory s state)
      (hr : ∀ r, Reads memory state r → InBounds s r) (hs : notEmpty state) :
      Complete memory s state :=
    hp.pass_within_iff.mp fun span hspan => (hr _ (.pass hs hspan)).1
  induction hv with
  | here s state => exact hcomplete hp hr hne
  | @continues s t state state' final hnext _ ih =>
    have hs : notEmpty state := by cases hnext <;> assumption
    exact ih (hp.continues (hcomplete hp hr hs) hnext) (fun r h => hr r (.continues hnext h)) hne
  | @enters s t state chunk final henter hv ih =>
    have hchunk : notEmpty chunk := by
      cases hv with
      | here => exact hne
      | continues hnext => cases hnext <;> assumption
      | enters henter => exact henter.1
    have hc := hcomplete hp hr henter.1
    refine ih (hp.enters hc henter hchunk).1 (fun r h => ?_) hne
    obtain ⟨-, hchunks⟩ := hr _ (.enters henter h)
    simp only [List.mem_append, List.mem_singleton] at hchunks
    exact ⟨hchunks _ (.inr rfl), fun u hu => hchunks u (.inl hu)⟩

section Images

theorem Image.mapped (image : Image) : Mapped image.memory image.span := by
  intro a ha hb
  obtain ⟨i, rfl⟩ := Int.le.dest ha
  have hi : i < image.bytes.length := by
    simp only [span] at hb
    omega
  have hcells : image.memory.cells image.before.length =
      (image.bytes.take i).map some ++ ((image.bytes.drop i).map some ++ image.after) := by
    rw [image.cells, ← List.append_assoc, ← List.map_append, List.take_append_drop]
  have := Memory.cells_add hcells
  rw [List.length_map, List.length_take_of_le (by omega), List.drop_eq_getElem_cons hi] at this
  exact ⟨image.bytes[i], by rw [Memory.byte, span, this]; rfl⟩

theorem Image.placed (image : Image) (h : image.bytes.length < 2 ^ 31) :
    Placed image.memory image.span image.buffer where
  count_lt := h
  remaining_eq := by simp [buffer, span]
  dot_le := by simp [buffer, span]
  mapped := image.mapped

/-- Of a file that fits an `int`, every read of `parse` is in the file and in the chunks it is
made in exactly when every field that `parse` comes to is complete. -/
theorem reads_in_bounds_iff (image : Image) (h : image.bytes.length < 2 ^ 31) :
    (∀ fuel, ∀ r ∈ (parse image.memory fuel image.buffer).reads, InBounds image.span r) ↔
      ∀ s state, Visits image.memory image.span image.buffer s state → notEmpty state →
        Complete image.memory s state := by
  have hp := image.placed h
  constructor
  · intro hr s state hv hne
    refine hv.complete hp (fun r hreads => ?_) hne
    obtain ⟨fuel, hmem⟩ := mem_reads_iff.mpr hreads
    exact hr fuel r hmem
  · intro hc fuel r hmem
    exact (mem_reads_iff.mp ⟨fuel, hmem⟩).inBounds hp hc

theorem Visits.nested {final : Buffer} (hs : state ∈ nestedBuffers)
    (hv : Visits nested.memory s state t final) :
    (t = s ∧ final = state) ∨ final = ⟨4, 0⟩ ∨ (t = ⟨2, 2⟩ ∧ final = ⟨2, 2⟩) := by
  induction hv with
  | here => exact .inl ⟨rfl, rfl⟩
  | continues hnext _ ih =>
    obtain rfl := hnext.nested hs
    rcases ih (by decide) with ⟨-, h⟩ | h
    · exact .inr (.inl h)
    · exact .inr h
  | enters henter _ ih =>
    obtain rfl := henter.nested hs
    rcases ih (by decide) with ⟨ht, h⟩ | h
    · exact .inr (.inr ⟨ht, h⟩)
    · exact .inr h

theorem complete_nested : Complete nested.memory ⟨0, 4⟩ ⟨0, 4⟩ where
  base_le := by decide
  tag := ⟨0, 0x0A, by decide, by decide +kernel, by decide⟩
  payload tag next hr := by
    have hread : (readVarint nested.memory ⟨0, 4⟩).result = some (0x0A, ⟨1, 3⟩) := by
      decide +kernel
    obtain ⟨rfl, rfl⟩ := Prod.mk.inj (Option.some.inj (hread.symm.trans hr))
    exact ⟨0, 0x02, by decide, by decide +kernel, by decide⟩

theorem complete_nested_chunk : Complete nested.memory ⟨2, 2⟩ ⟨2, 2⟩ where
  base_le := by decide
  tag := ⟨0, 0x08, by decide, by decide +kernel, by decide⟩
  payload tag next hr := by
    have hread : (readVarint nested.memory ⟨2, 2⟩).result = some (0x08, ⟨3, 1⟩) := by
      decide +kernel
    obtain ⟨rfl, rfl⟩ := Prod.mk.inj (Option.some.inj (hread.symm.trans hr))
    exact ⟨0, 0x05, by decide, by decide +kernel, by decide⟩

theorem reads_in_bounds_iff_nested : nested.buffer = ⟨0, 4⟩ ∧
    ∀ fuel, ∀ r ∈ (parse nested.memory fuel nested.buffer).reads, InBounds nested.span r := by
  have hbuffer : nested.buffer = ⟨0, 4⟩ := by decide +kernel
  refine ⟨hbuffer, (reads_in_bounds_iff nested (by decide)).mpr fun s state hv hne => ?_⟩
  rcases hv.nested mem_nestedBuffers with ⟨rfl, rfl⟩ | rfl | ⟨rfl, rfl⟩
  · rw [hbuffer]
    exact complete_nested
  · exact absurd hne (by decide)
  · exact complete_nested_chunk

/-- A file of the one byte 0x80, in a page that is zero after it. -/
def truncated : Image := ⟨[], [0x80], [some 0]⟩

theorem truncated_reads_past :
    ¬ ∀ fuel, ∀ r ∈ (parse truncated.memory fuel truncated.buffer).reads,
      InBounds truncated.span r := by
  intro h
  have hpast := h 1 ⟨⟨0, 2⟩, []⟩ (by decide +kernel)
  exact absurd hpast.1 (by decide)

end Images

end Redx.Protobuf
