import Redx.Protobuf.Parse
import Mathlib.Logic.Relation
import Mathlib.Tactic.Ring

/-!
# The passes a run makes

Each pass leads to the next one of its call, and to the first one of the call for a chunk. What
the runs of `parse` read, and how they end, is told from the passes that are led to.
-/
namespace Redx.Protobuf

variable {memory : Memory} {state state' chunk : Buffer} {fuel : ℕ}

section Readings

theorem varintLoop_le (cells : List (Option UInt8)) (shift : ℕ) (value : UInt64) :
    1 ≤ (varintLoop cells shift value).1 := by
  fun_induction varintLoop cells shift value <;> simp

theorem varintLoop_some {cells : List (Option UInt8)} {shift : ℕ} {value v : UInt64}
    (h : (varintLoop cells shift value).2 = some v) :
    (varintLoop cells shift value).1 ≤ cells.length := by
  fun_induction varintLoop cells shift value with
  | case1 => simp
  | case2 _ _ _ _ _ _ _ ih => exact Nat.succ_le_succ (ih h)
  | case3 => simp at h

theorem byteLoop_le (cells : List (Option UInt8)) (length : ℕ) :
    (byteLoop cells length).1 ≤ length := by
  fun_induction byteLoop cells length with
  | case1 => exact le_rfl
  | case2 _ _ _ _ ih => exact Nat.succ_le_succ ih
  | case3 => simp

theorem length_cells {address : ℤ} {n : ℕ} (hn : 1 ≤ n) (h : n ≤ (memory.cells address).length) :
    0 ≤ address ∧ address + n ≤ memory.length := by
  unfold Memory.cells at h
  split at h
  · simp at h
    omega
  · rw [List.length_drop] at h
    omega

/-- A varint that is read whole lies in the address space, and the buffer moves past it. -/
theorem readVarint_some {v : UInt64} (h : (readVarint memory state).result = some (v, state')) :
    state' = increment state (readVarint memory state).span.count ∧ 0 ≤ state.dot ∧
      state.dot + (readVarint memory state).span.count ≤ memory.length := by
  obtain ⟨w, hw, heq⟩ := Option.map_eq_some_iff.mp h
  obtain ⟨rfl, rfl⟩ := Prod.mk.inj heq
  exact ⟨rfl, length_cells (varintLoop_le _ _ _) (varintLoop_some hw)⟩

theorem one_le_readVarint : 1 ≤ (readVarint memory state).span.count := varintLoop_le _ _ _

end Readings

section Controls

theorem increment_increment (m n : ℤ) :
    increment (increment state m) n = increment state (m + n) := by
  simp only [increment, narrow_narrow_sub, Buffer.mk.injEq]
  exact ⟨by ring, by ring_nf⟩

@[simp] theorem Pass.control_print (line : Line) (pass : Pass) :
    (pass.print line).control = pass.control := rfl

@[simp] theorem Pass.reads_print (line : Line) (pass : Pass) :
    (pass.print line).reads = pass.reads := rfl

@[simp] theorem Pass.lines_print (line : Line) (pass : Pass) :
    (pass.print line).lines = line :: pass.lines := rfl

theorem Reading.control_andThen {α : Type} {reading : Reading α} {rest : α → Buffer → Pass}
    {control : Control} (h : (reading.andThen rest).control = control) (hc : control ≠ .fault) :
    ∃ value s, reading.result = some (value, s) ∧ (rest value s).control = control := by
  unfold andThen at h
  split at h
  · exact absurd h.symm hc
  · rename_i value s hr
    exact ⟨value, s, hr, h⟩

theorem Reading.andThen_some {α : Type} {reading : Reading α} {rest : α → Buffer → Pass}
    {value : α} (h : reading.result = some (value, state)) :
    (reading.andThen rest).control = (rest value state).control ∧
      (reading.andThen rest).lines = (rest value state).lines := by
  rw [andThen, h]
  exact ⟨rfl, rfl⟩

theorem Reading.mem_reads_andThen {α : Type} {reading : Reading α} {rest : α → Buffer → Pass}
    {span : Span} :
    span ∈ (reading.andThen rest).reads ↔ span = reading.span ∨
      ∃ value s, reading.result = some (value, s) ∧ span ∈ (rest value s).reads := by
  unfold andThen
  split
  · simp_all
  · rename_i value s hr
    simp [hr]

theorem Reading.span_mem {α : Type} {reading : Reading α} {rest : α → Buffer → Pass} :
    reading.span ∈ (reading.andThen rest).reads := mem_reads_andThen.mpr (.inl rfl)

theorem readFixed_some {width : ℕ} {value : ℕ}
    (h : (readFixed width memory state).result = some (value, state')) :
    state' = increment state width := by
  obtain ⟨_, _, heq⟩ := Option.map_eq_some_iff.mp h
  exact (Prod.mk.inj heq).2.symm

theorem dump_some {bytes : List UInt8}
    (h : (dump memory chunk).result = some (bytes, state')) : chunk = state' := by
  obtain ⟨_, _, heq⟩ := Option.map_eq_some_iff.mp h
  exact (Prod.mk.inj heq).2

/-- When a pass goes on to the next one, the cursor is where the last read ended. -/
theorem switch_next {type : ℕ} (h : (switch memory state type).control = .next state') :
    state' = state ∨ ∃ n : ℕ, state' = increment state n ∧
      ⟨state.dot, n⟩ ∈ (switch memory state type).reads := by
  unfold switch at h ⊢
  split at h
  · obtain ⟨value, s, hr, hc⟩ := Reading.control_andThen h nofun
    cases hc
    exact .inr ⟨_, (readVarint_some hr).1, Reading.span_mem⟩
  · split at h
    · cases h
    · rename_i hfits
      obtain ⟨value, s, hr, hc⟩ := Reading.control_andThen h nofun
      cases hc
      refine .inr ⟨8, readFixed_some hr, ?_⟩
      rw [if_neg hfits]
      exact Reading.span_mem
  · obtain ⟨value, s, hr, hc⟩ := Reading.control_andThen h nofun
    dsimp only [lengthCase] at hc
    split at hc
    · cases hc
    · rw [Pass.control_print] at hc
      obtain ⟨bytes, c, hr, hc⟩ := Reading.control_andThen hc nofun
      cases hc
  · cases h
    exact .inl rfl
  · cases h
    exact .inl rfl
  · obtain ⟨value, s, hr, hc⟩ := Reading.control_andThen h nofun
    cases hc
    exact .inr ⟨4, readFixed_some hr, Reading.span_mem⟩
  · cases h
    exact .inl rfl

/-- A chunk starts at the cursor, and its length is not more than what remains there. -/
theorem lengthCase_chunk {length : UInt64}
    (h : (lengthCase memory length state).control = .chunk chunk state') :
    chunk = ⟨state.dot, narrow length.toNat⟩ ∧ chunk.remaining ≤ state.remaining ∧
      state' = increment state chunk.remaining := by
  dsimp only [lengthCase] at h
  split at h
  · cases h
  · rename_i hle
    rw [Pass.control_print] at h
    obtain ⟨bytes, c, hr, hc⟩ := Reading.control_andThen h nofun
    obtain rfl := dump_some hr
    cases hc
    exact ⟨rfl, not_lt.mp hle, rfl⟩

/-- Only a length leads to a chunk. -/
theorem switch_chunk {type : ℕ} (h : (switch memory state type).control = .chunk chunk state') :
    type = 2 ∧ ∃ length next, (readVarint memory state).result = some (length, next) ∧
      (lengthCase memory length next).control = .chunk chunk state' := by
  unfold switch at h
  split at h
  · obtain ⟨value, s, hr, hc⟩ := Reading.control_andThen h nofun
    cases hc
  · split at h
    · cases h
    · obtain ⟨value, s, hr, hc⟩ := Reading.control_andThen h nofun
      cases hc
  · exact ⟨rfl, Reading.control_andThen h nofun⟩
  · cases h
  · cases h
  · obtain ⟨value, s, hr, hc⟩ := Reading.control_andThen h nofun
    cases hc
  · cases h

/-- The pass goes on as the length says. -/
theorem pass_length {tag length : UInt64} {next behind : Buffer}
    (htag : (readVarint memory state).result = some (tag, next)) (htype : wireType tag = 2)
    (hlength : (readVarint memory next).result = some (length, behind)) :
    (pass memory state).control = (lengthCase memory length behind).control := by
  rw [pass, (Reading.andThen_some htag).1, Pass.control_print, htype, switch,
    (Reading.andThen_some hlength).1]

/-- A pass that does not fault has read a tag. -/
theorem pass_control {control : Control} (h : (pass memory state).control = control)
    (hc : control ≠ .fault) :
    ∃ tag, ∃ n : ℕ, 1 ≤ n ∧ (readVarint memory state).result = some (tag, increment state n) ∧
      (readVarint memory state).span = ⟨state.dot, n⟩ ∧
      (switch memory (increment state n) (wireType tag)).control = control := by
  obtain ⟨tag, s, hr, hcontrol⟩ := Reading.control_andThen h hc
  obtain ⟨rfl, -⟩ := readVarint_some hr
  exact ⟨tag, _, one_le_readVarint, hr, rfl, hcontrol⟩

theorem mem_reads_pass {span : Span} :
    span ∈ (pass memory state).reads ↔ span = (readVarint memory state).span ∨
      ∃ tag s, (readVarint memory state).result = some (tag, s) ∧
        span ∈ (switch memory s (wireType tag)).reads := Reading.mem_reads_andThen

theorem pass_next (h : (pass memory state).control = .next state') :
    ∃ n : ℕ, 1 ≤ n ∧ state' = increment state n ∧
      ∃ span ∈ (pass memory state).reads, span.base + span.count = state.dot + n := by
  obtain ⟨tag, n, hn, hr, hspan, hc⟩ := pass_control h nofun
  rcases switch_next hc with rfl | ⟨k, rfl, hk⟩
  · exact ⟨n, hn, rfl, _, mem_reads_pass.mpr (.inl hspan.symm), rfl⟩
  · refine ⟨n + k, by omega, by rw [increment_increment, Nat.cast_add], _,
      mem_reads_pass.mpr (.inr ⟨tag, _, hr, hk⟩), ?_⟩
    simp only [increment, Nat.cast_add, add_assoc]

theorem pass_chunk (h : (pass memory state).control = .chunk chunk state') :
    ∃ n : ℕ, ∃ x, 1 ≤ n ∧
      (∃ span ∈ (pass memory state).reads, span.base + span.count = state.dot + n) ∧
      chunk = ⟨state.dot + n, narrow x⟩ ∧ chunk.remaining ≤ (increment state n).remaining ∧
      state' = increment state (n + chunk.remaining) := by
  obtain ⟨tag, n, hn, hr, hspan, hc⟩ := pass_control h nofun
  obtain ⟨htype, length, next, hlength, hcase⟩ := switch_chunk hc
  obtain ⟨hnext, -⟩ := readVarint_some hlength
  obtain ⟨hchunk, hle, hstate⟩ := lengthCase_chunk hcase
  have hread : (readVarint memory (increment state n)).span ∈
      (switch memory (increment state n) (wireType tag)).reads := by
    rw [htype]
    exact Reading.span_mem
  obtain ⟨k, hk⟩ : ∃ k, (readVarint memory (increment state n)).span.count = k := ⟨_, rfl⟩
  have hbase : (readVarint memory (increment state n)).span.base = state.dot + n := rfl
  rw [hk, increment_increment, ← Nat.cast_add] at hnext
  refine ⟨n + k, length.toNat, by omega,
    ⟨_, mem_reads_pass.mpr (.inr ⟨tag, _, hr, hread⟩), ?_⟩, ?_, ?_, ?_⟩
  · rw [hbase, hk, Nat.cast_add, add_assoc]
  · rw [hchunk, hnext]
    rfl
  · rwa [hnext] at hle
  · rw [hstate, hnext, increment_increment]

end Controls

section Runs

theorem parse_of_empty (hs : ¬ notEmpty state) :
    parse memory (fuel + 1) state = ⟨[], [], .returned .zero state⟩ := by rw [parse, if_neg hs]

theorem parse_of_notEmpty (hs : notEmpty state) :
    parse memory (fuel + 1) state = .after (pass memory state)
      (match (pass memory state).control with
        | .fault => ⟨[], [], .killed⟩
        | .emsgsize state => ⟨[], [], .returned .emsgsize state⟩
        | .next state => parse memory fuel state
        | .chunk chunk state =>
          ((parse memory fuel chunk).inside chunk).andThen (parse memory fuel state)) := by
  rw [parse]
  exact if_pos hs

theorem parse_fault (hs : notEmpty state) (hc : (pass memory state).control = .fault) :
    parse memory (fuel + 1) state = .after (pass memory state) ⟨[], [], .killed⟩ := by
  rw [parse_of_notEmpty hs]
  simp only [hc]

theorem parse_emsgsize (hs : notEmpty state) (hc : (pass memory state).control = .emsgsize state') :
    parse memory (fuel + 1) state =
      .after (pass memory state) ⟨[], [], .returned .emsgsize state'⟩ := by
  rw [parse_of_notEmpty hs]
  simp only [hc]

theorem parse_next (hs : notEmpty state) (hc : (pass memory state).control = .next state') :
    parse memory (fuel + 1) state = .after (pass memory state) (parse memory fuel state') := by
  rw [parse_of_notEmpty hs]
  simp only [hc]

/-- After the call for a chunk has returned, the caller goes on. -/
theorem parse_chunk_returned {code : Code} {final : Buffer} (hs : notEmpty state)
    (hc : (pass memory state).control = .chunk chunk state')
    (ho : (parse memory fuel chunk).outcome = .returned code final) :
    parse memory (fuel + 1) state = .after (pass memory state)
      ⟨((parse memory fuel chunk).inside chunk).reads ++ (parse memory fuel state').reads,
        ((parse memory fuel chunk).inside chunk).lines ++
          (0, .finish) :: (parse memory fuel state').lines,
        (parse memory fuel state').outcome⟩ := by
  have hi : ((parse memory fuel chunk).inside chunk).outcome = .returned code final := ho
  rw [parse_of_notEmpty hs]
  simp only [hc, Trace.andThen, hi]

/-- When the call for a chunk does not return, the run of the caller is cut there. -/
theorem parse_chunk_cut (hs : notEmpty state)
    (hc : (pass memory state).control = .chunk chunk state')
    (ho : ¬ ∃ code final, (parse memory fuel chunk).outcome = .returned code final) :
    parse memory (fuel + 1) state =
      .after (pass memory state) ((parse memory fuel chunk).inside chunk) := by
  have hi : ((parse memory fuel chunk).inside chunk).outcome =
    (parse memory fuel chunk).outcome := rfl
  rw [parse_of_notEmpty hs]
  simp only [hc, Trace.andThen, hi]
  cases h : (parse memory fuel chunk).outcome with
  | returned code final => exact absurd ⟨code, final, h⟩ ho
  | killed | running => rfl

/-- A run that has come to its end is not changed by more fuel. -/
theorem parse_of_le {n k : ℕ} (h : (parse memory n state).outcome ≠ .running) (hk : n ≤ k) :
    parse memory k state = parse memory n state := by
  induction n generalizing state k with
  | zero => exact absurd rfl h
  | succ n ih =>
    obtain ⟨k, rfl⟩ : ∃ j, k = j + 1 := ⟨k - 1, by omega⟩
    have hk : n ≤ k := by omega
    by_cases hs : notEmpty state
    · cases hc : (pass memory state).control with
      | fault => rw [parse_fault hs hc, parse_fault hs hc]
      | emsgsize state' => rw [parse_emsgsize hs hc, parse_emsgsize hs hc]
      | next state' =>
        rw [parse_next hs hc] at h
        rw [parse_next hs hc, parse_next hs hc, ih h hk]
      | chunk chunk state' =>
        by_cases ho : ∃ code final, (parse memory n chunk).outcome = .returned code final
        · obtain ⟨code, final, ho⟩ := ho
          have hcall := ih (by rw [ho]; nofun : (parse memory n chunk).outcome ≠ .running) hk
          rw [parse_chunk_returned hs hc ho] at h ⊢
          rw [parse_chunk_returned hs hc (hcall ▸ ho), hcall, ih h hk]
        · rw [parse_chunk_cut hs hc ho] at h ⊢
          have hcall := ih h hk
          rw [parse_chunk_cut hs hc (hcall ▸ ho), hcall]
    · rw [parse_of_empty hs, parse_of_empty hs]

theorem mem_reads_next {r : Read} (hs : notEmpty state)
    (hc : (pass memory state).control = .next state') :
    r ∈ (parse memory (fuel + 1) state).reads ↔
      r ∈ (pass memory state).reads.map (⟨·, []⟩) ∨ r ∈ (parse memory fuel state').reads := by
  rw [parse_next hs hc]
  exact List.mem_append

theorem mem_reads_chunk {r : Read} (hs : notEmpty state)
    (hc : (pass memory state).control = .chunk chunk state') :
    r ∈ (parse memory (fuel + 1) state).reads ↔
      r ∈ (pass memory state).reads.map (⟨·, []⟩) ∨
      r ∈ ((parse memory fuel chunk).inside chunk).reads ∨
      (∃ code final, (parse memory fuel chunk).outcome = .returned code final) ∧
        r ∈ (parse memory fuel state').reads := by
  by_cases ho : ∃ code final, (parse memory fuel chunk).outcome = .returned code final
  · obtain ⟨code, final, hr⟩ := ho
    rw [parse_chunk_returned hs hc hr]
    simp only [Trace.after, List.mem_append, hr]
    simp
  · rw [parse_chunk_cut hs hc ho]
    simp only [Trace.after, List.mem_append, ho, false_and, or_false]

/-- With more fuel a run reads what it read, and perhaps more. -/
theorem reads_subset {n k : ℕ} (hk : n ≤ k) :
    (parse memory n state).reads ⊆ (parse memory k state).reads := by
  induction n generalizing state k with
  | zero => exact List.nil_subset _
  | succ n ih =>
    obtain ⟨k, rfl⟩ : ∃ j, k = j + 1 := ⟨k - 1, by omega⟩
    by_cases hend : (parse memory (n + 1) state).outcome = .running
    · have hk : n ≤ k := by omega
      by_cases hs : notEmpty state
      · intro r hr
        cases hc : (pass memory state).control with
        | fault => rw [parse_fault hs hc] at hend; cases hend
        | emsgsize state' => rw [parse_emsgsize hs hc] at hend; cases hend
        | next state' =>
          rw [mem_reads_next hs hc] at hr ⊢
          exact hr.imp id fun h => ih hk h
        | chunk chunk state' =>
          rw [mem_reads_chunk hs hc] at hr ⊢
          rcases hr with hr | hr | ⟨⟨code, final, ho⟩, hr⟩
          · exact .inl hr
          · exact .inr (.inl (List.map_subset _ (ih hk) hr))
          · rw [← parse_of_le (by rw [ho]; nofun) hk] at ho
            exact .inr (.inr ⟨⟨code, final, ho⟩, ih hk hr⟩)
      · rw [parse_of_empty hs] at hend
        cases hend
    · rw [parse_of_le hend hk]
      exact List.Subset.refl _

end Runs

section Passes

/-- The call for a buffer comes to a `return`. -/
def Returns (memory : Memory) (state : Buffer) : Prop :=
  ∃ fuel code final, (parse memory fuel state).outcome = .returned code final

/-- The call for a buffer comes to an end, by a `return` or with the process. -/
def Ends (memory : Memory) (state : Buffer) : Prop :=
  ∃ fuel, (parse memory fuel state).outcome ≠ .running

/-- After the pass for one buffer the same call makes one for another. -/
inductive Continues (memory : Memory) (state state' : Buffer) : Prop
  | next : notEmpty state → (pass memory state).control = .next state' →
      Continues memory state state'
  | chunk (chunk : Buffer) : notEmpty state → (pass memory state).control = .chunk chunk state' →
      Returns memory chunk → Continues memory state state'

/-- The pass for a buffer makes a call for a chunk. -/
def Enters (memory : Memory) (state chunk : Buffer) : Prop :=
  notEmpty state ∧ ∃ state', (pass memory state).control = .chunk chunk state'

def Leads (memory : Memory) (state state' : Buffer) : Prop :=
  Continues memory state state' ∨ Enters memory state state'

theorem Returns.returned (h : Returns memory state)
    (hn : (parse memory fuel state).outcome ≠ .running) :
    ∃ code final, (parse memory fuel state).outcome = .returned code final := by
  obtain ⟨k, code, final, hk⟩ := h
  have hk' : (parse memory k state).outcome ≠ .running := by rw [hk]; nofun
  rcases Nat.le_total fuel k with hle | hle
  · exact ⟨code, final, parse_of_le hn hle ▸ hk⟩
  · exact ⟨code, final, (parse_of_le hk' hle).symm ▸ hk⟩

/-- What the runs of a call read, told from the passes. -/
inductive Reads (memory : Memory) : Buffer → Read → Prop
  | pass {state : Buffer} {span : Span} : notEmpty state → span ∈ (pass memory state).reads →
      Reads memory state ⟨span, []⟩
  | continues {state state' : Buffer} {r : Read} : Continues memory state state' →
      Reads memory state' r → Reads memory state r
  | enters {state chunk : Buffer} {r : Read} : Enters memory state chunk → Reads memory chunk r →
      Reads memory state ⟨r.span, r.chunks ++ [chunk.span]⟩

theorem reads_of_mem {r : Read} (h : r ∈ (parse memory fuel state).reads) :
    Reads memory state r := by
  induction fuel generalizing state r with
  | zero => cases h
  | succ n ih =>
    by_cases hs : notEmpty state
    · have hpass {r : Read} (h : r ∈ (pass memory state).reads.map (⟨·, []⟩)) :
          Reads memory state r := by
        obtain ⟨span, hspan, rfl⟩ := List.mem_map.mp h
        exact .pass hs hspan
      cases hc : (pass memory state).control with
      | fault =>
        rw [parse_fault hs hc] at h
        exact hpass (by simpa [Trace.after] using h)
      | emsgsize state' =>
        rw [parse_emsgsize hs hc] at h
        exact hpass (by simpa [Trace.after] using h)
      | next state' =>
        rcases (mem_reads_next hs hc).mp h with h | h
        · exact hpass h
        · exact .continues (.next hs hc) (ih h)
      | chunk chunk state' =>
        rcases (mem_reads_chunk hs hc).mp h with h | h | ⟨⟨code, final, ho⟩, h⟩
        · exact hpass h
        · obtain ⟨r', hr', rfl⟩ := List.mem_map.mp h
          exact .enters ⟨hs, state', hc⟩ (ih hr')
        · exact .continues (.chunk chunk hs hc ⟨n, code, final, ho⟩) (ih h)
    · rw [parse_of_empty hs] at h
      cases h

theorem mem_of_reads {r : Read} (h : Reads memory state r) :
    ∃ fuel, r ∈ (parse memory fuel state).reads := by
  induction h with
  | @pass state span hs hspan =>
    refine ⟨1, ?_⟩
    rw [parse_of_notEmpty hs]
    exact List.mem_append_left _ (List.mem_map_of_mem hspan)
  | @continues state state' r hc _ ih =>
    obtain ⟨n, hn⟩ := ih
    cases hc with
    | next hs hc => exact ⟨n + 1, (mem_reads_next hs hc).mpr (.inr hn)⟩
    | chunk chunk hs hc hr =>
      obtain ⟨k, code, final, hk⟩ := hr
      refine ⟨max n k + 1, (mem_reads_chunk hs hc).mpr (.inr (.inr ⟨⟨code, final, ?_⟩, ?_⟩))⟩
      · rw [parse_of_le (by rw [hk]; nofun) (Nat.le_max_right n k), hk]
      · exact reads_subset (Nat.le_max_left n k) hn
  | @enters state chunk r he _ ih =>
    obtain ⟨n, hn⟩ := ih
    obtain ⟨hs, state', hc⟩ := he
    exact ⟨n + 1, (mem_reads_chunk hs hc).mpr (.inr (.inl (List.mem_map_of_mem hn)))⟩

/-- The reads of the runs of a call are those of the passes it leads to. -/
theorem mem_reads_iff {r : Read} :
    (∃ fuel, r ∈ (parse memory fuel state).reads) ↔ Reads memory state r :=
  ⟨fun ⟨_, h⟩ => reads_of_mem h, mem_of_reads⟩

end Passes

section Nested

/-- A byte string of two bytes that are parsed again, as a varint field. -/
def nested : Image := ⟨[], [0x0A, 0x02, 0x08, 0x05], []⟩

/-- The buffers of its passes, and the one at the end of its calls. -/
def nestedBuffers : List Buffer := [⟨0, 4⟩, ⟨2, 2⟩, ⟨4, 0⟩]

theorem mem_nestedBuffers : nested.buffer ∈ nestedBuffers := by decide +kernel

theorem control_nested : ∀ s ∈ nestedBuffers, ¬ notEmpty s ∨
    (pass nested.memory s).control = .chunk ⟨2, 2⟩ ⟨4, 0⟩ ∨
      (pass nested.memory s).control = .next ⟨4, 0⟩ := by decide +kernel

theorem Continues.nested (hs : state ∈ nestedBuffers)
    (h : Continues nested.memory state state') : state' = ⟨4, 0⟩ := by
  rcases control_nested state hs with hempty | hc | hc <;>
    rcases h with ⟨hne, hc'⟩ | ⟨c, hne, hc', -⟩ <;> simp_all

theorem Enters.nested (hs : state ∈ nestedBuffers) (h : Enters nested.memory state chunk) :
    chunk = ⟨2, 2⟩ := by
  obtain ⟨hne, next, hc'⟩ := h
  rcases control_nested state hs with hempty | hc | hc <;> simp_all

end Nested

end Redx.Protobuf
