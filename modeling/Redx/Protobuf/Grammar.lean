import Redx.Protobuf.Varint

/-!
# The bytes of fields

A message is a sequence of complete fields. The fields that `parse` takes are these and some
more, and two kinds it rejects. While the bytes, and those of the byte strings in them, are
fields that lie inside, up to the end or to one that is rejected, the run is told by the bytes
alone: no read leaves them, and `parse` returns.
-/
namespace Redx.Protobuf
open Library

/-- The bytes are a varint: `read_varint` reads all of them, and this value. -/
def IsVarint (bytes : List UInt8) (value : UInt64) : Prop :=
  varintLoop (bytes.map some) 0 0 = (bytes.length, some value)

instance (bytes : List UInt8) (value : UInt64) : Decidable (IsVarint bytes value) := by
  unfold IsVarint; infer_instance

/-- A complete payload of a wire type. -/
inductive Payload : ℕ → List UInt8 → Prop
  | varint {bytes : List UInt8} {value : UInt64} : IsVarint bytes value → Payload 0 bytes
  | fixed64 {bytes : List UInt8} : bytes.length = 8 → Payload 1 bytes
  | bytes {length content : List UInt8} {value : UInt64} : IsVarint length value →
      content.length = value.toNat → Payload 2 (length ++ content)
  | groupStart : Payload 3 []
  | groupEnd : Payload 4 []
  | fixed32 {bytes : List UInt8} : bytes.length = 4 → Payload 5 bytes

/-- A complete tag and a complete payload of its wire type. -/
inductive IsField : List UInt8 → Prop
  | field {tag payload : List UInt8} {value : UInt64} : IsVarint tag value →
      Payload (wireType value) payload → IsField (tag ++ payload)

/-- A concatenation of complete fields. -/
inductive Message : List UInt8 → Prop
  | nil : Message []
  | cons {field rest : List UInt8} : IsField field → Message rest → Message (field ++ rest)

/-- What `parse` takes for a field, and the bytes that it parses again. A length is stored in an
`int`, and a tag with the wire type 6 or 7 is passed over alone. -/
inductive Taken : List UInt8 → Option (List UInt8) → Prop
  | payload {tag payload : List UInt8} {value : UInt64} : IsVarint tag value →
      wireType value ≠ 2 → Payload (wireType value) payload → Taken (tag ++ payload) none
  | bytes {tag length content : List UInt8} {value size : UInt64} : IsVarint tag value →
      wireType value = 2 → IsVarint length size → narrow size.toNat = content.length →
        Taken (tag ++ (length ++ content)) (some content)
  | unknown {tag : List UInt8} {value : UInt64} : IsVarint tag value → 5 < wireType value →
      Taken tag none

/-- The field in front is one that the code rejects: fewer than eight bytes are left for a wire
type of 1, or fewer than the length says. -/
inductive Rejects : List UInt8 → Prop
  | fixed64 {tag rest : List UInt8} {value : UInt64} : IsVarint tag value →
      wireType value = 1 → rest.length < 8 → Rejects (tag ++ rest)
  | bytes {tag length rest : List UInt8} {value size : UInt64} : IsVarint tag value →
      wireType value = 2 → IsVarint length size → (rest.length : ℤ) < narrow size.toNat →
        Rejects (tag ++ (length ++ rest))

/-- Behind fields that are taken there is one that the code rejects. -/
inductive Rejected : List UInt8 → Prop
  | here {bytes : List UInt8} : Rejects bytes → Rejected bytes
  | behind {field rest : List UInt8} {content : Option (List UInt8)} : Taken field content →
      Rejected rest → Rejected (field ++ rest)

/-- The bytes are fields up to the end, or up to one that the code rejects, and so are the bytes
that it parses again. -/
inductive Contained : List UInt8 → Prop
  | nil : Contained []
  | rejects {bytes : List UInt8} : Rejects bytes → Contained bytes
  | cons {field rest : List UInt8} {content : Option (List UInt8)} : Taken field content →
      (∀ bytes ∈ content, Contained bytes) → Contained rest → Contained (field ++ rest)

variable {memory : Memory} {state state' s t : Buffer} {rest rest' : List (Option UInt8)}
  {field bytes : List UInt8} {content : Option (List UInt8)}

section Reading

/-- What follows a varint does not matter. -/
theorem varintLoop_append {cells : List (Option UInt8)} {shift n : ℕ} {value v : UInt64}
    (h : varintLoop cells shift value = (n, some v)) (rest : List (Option UInt8)) :
    varintLoop (cells ++ rest) shift value = (n, some v) := by
  induction cells generalizing shift value n with
  | nil => cases h
  | cons cell cells ih =>
    cases cell with
    | none => cases h
    | some x =>
      rw [List.cons_append]
      by_cases hlast : x &&& 0x80 = 0
      · rw [varintLoop, if_pos hlast] at h ⊢
        exact h
      · rw [varintLoop, if_neg hlast] at h ⊢
        obtain ⟨rfl, hv⟩ := Prod.mk.inj h
        rw [ih (Prod.ext rfl hv)]

theorem readVarint_of_isVarint {value : UInt64} (hv : IsVarint bytes value)
    (h : memory.cells state.dot = bytes.map some ++ rest) :
    (readVarint memory state).result = some (value, increment state bytes.length) := by
  rw [readVarint, h, varintLoop_append hv]
  rfl

theorem IsVarint.length_pos {value : UInt64} (h : IsVarint bytes value) : 0 < bytes.length := by
  have hle := varintLoop_le (bytes.map some) 0 0
  rw [h] at hle
  exact hle

theorem byteLoop_map (bytes : List UInt8) (rest : List (Option UInt8)) :
    byteLoop (bytes.map some ++ rest) bytes.length = (bytes.length, some bytes) := by
  induction bytes with
  | nil => rw [List.length_nil, byteLoop]
  | cons x bytes ih =>
    rw [List.map_cons, List.cons_append, List.length_cons, byteLoop, ih]
    rfl

theorem readFixed_of_cells {width : ℕ} (hlen : bytes.length = width)
    (h : memory.cells state.dot = bytes.map some ++ rest) :
    (readFixed width memory state).result = some (ofBytes bytes, increment state width) := by
  have hloop := byteLoop_map bytes rest
  rw [hlen] at hloop
  rw [readFixed, h, hloop]
  rfl

theorem wireType_lt (tag : UInt64) : wireType tag < 8 := by
  rw [wireType, UInt64.toNat_and]
  exact Nat.lt_of_le_of_lt Nat.and_le_right (by decide)

theorem increment_dot (n : ℤ) : (increment state n).dot = state.dot + n := rfl

theorem increment_remaining (h : state.remaining < 2 ^ 31) {n : ℕ} (hn : n ≤ state.remaining) :
    (increment state n).remaining = state.remaining - n := narrow_eq_self (by omega) (by omega)

/-- Behind some bytes the buffer holds those that follow. -/
theorem cells_increment {others : List (Option UInt8)}
    (h : memory.cells state.dot = bytes.map some ++ others) :
    memory.cells (increment state bytes.length).dot = others := by
  have hcells := Memory.cells_add h
  rwa [List.length_map, ← increment_dot] at hcells

end Reading

section Passes

/-- How a pass goes on after a field. -/
def proceed (chunk : Option Buffer) (state : Buffer) : Control :=
  match chunk with
  | none => .next state
  | some chunk => .chunk chunk state

theorem proceed_inj {c d : Option Buffer} (h : proceed c s = proceed d t) : s = t := by
  cases c <;> cases d <;> cases h <;> rfl

theorem proceed_ne_emsgsize (c : Option Buffer) : proceed c s ≠ .emsgsize t := by
  cases c <;> nofun

/-- The bytes of a length that are there are a chunk. -/
theorem lengthCase_content {content : List UInt8} {size : UInt64}
    (hsize : narrow size.toNat = content.length) (hfit : content.length ≤ state.remaining)
    (h : memory.cells state.dot = content.map some ++ rest) :
    (lengthCase memory size state).control =
        .chunk ⟨state.dot, content.length⟩ (increment state content.length) ∧
      (lengthCase memory size state).lines =
        [.length content.length, .bytes content, .begin] := by
  have hdump : (dump memory ⟨state.dot, content.length⟩).result =
      some (content, ⟨state.dot, content.length⟩) := by
    rw [dump, h, Int.toNat_natCast, byteLoop_map]
    rfl
  dsimp only [lengthCase]
  rw [hsize, if_neg (by omega), Pass.control_print, Pass.lines_print,
    (Reading.andThen_some hdump).1, (Reading.andThen_some hdump).2]
  exact ⟨rfl, rfl⟩

/-- The pass goes on behind a complete payload other than a byte string. -/
theorem switch_payload {type : ℕ} (hp : Payload type bytes) (htype : type ≠ 2)
    (hint : state.remaining < 2 ^ 31) (hfit : bytes.length ≤ state.remaining)
    (h : memory.cells state.dot = bytes.map some ++ rest) :
    (switch memory state type).control = .next (increment state bytes.length) := by
  cases hp with
  | varint hv =>
    rw [switch, (Reading.andThen_some (readVarint_of_isVarint hv h)).1]
  | fixed64 hlen =>
    rw [switch, if_neg (by omega), read64bit,
      (Reading.andThen_some (readFixed_of_cells hlen h)).1, hlen]
  | bytes => exact absurd rfl htype
  | groupStart | groupEnd =>
    have hsame : increment state 0 = state := by
      rw [increment, add_zero, sub_zero,
        narrow_eq_self (by simp only [List.length_nil, Nat.cast_zero] at hfit; omega) hint]
    rw [List.length_nil, Nat.cast_zero, hsame]
    rfl
  | fixed32 hlen =>
    rw [switch, read32bit, (Reading.andThen_some (readFixed_of_cells hlen h)).1, hlen]

/-- The pass goes on behind a field that is taken, and a chunk holds the bytes of it that are
parsed again. -/
theorem Taken.pass (ht : Taken field content) (hint : state.remaining < 2 ^ 31)
    (hfit : field.length ≤ state.remaining)
    (h : memory.cells state.dot = field.map some ++ rest) :
    ∃ chunk, (pass memory state).control = proceed chunk (increment state field.length) ∧
      ∀ c ∈ chunk, ∃ bytes ∈ content, c.remaining = bytes.length ∧
        memory.cells c.dot = bytes.map some ++ rest := by
  cases ht with
  | @payload tag payload value htag htype hp =>
    rw [List.map_append, List.append_assoc] at h
    rw [List.length_append] at hfit ⊢
    have hrem := increment_remaining hint (by omega : tag.length ≤ state.remaining)
    have hc := switch_payload hp htype (by omega) (by omega) (cells_increment h)
    rw [increment_increment] at hc
    refine ⟨none, ?_, nofun⟩
    rw [Protobuf.pass, (Reading.andThen_some (readVarint_of_isVarint htag h)).1,
      Pass.control_print, hc, Nat.cast_add]
    rfl
  | @bytes tag length content value size htag htype hlength hsize =>
    rw [List.map_append, List.append_assoc] at h
    rw [List.length_append, List.length_append] at hfit ⊢
    have hbehind := cells_increment h
    rw [List.map_append, List.append_assoc] at hbehind
    have hrem := increment_remaining hint (by omega : tag.length ≤ state.remaining)
    have hint' : (increment state tag.length).remaining < 2 ^ 31 := by omega
    have hrem' := increment_remaining hint'
      (by omega : length.length ≤ (increment state tag.length).remaining)
    have hcells := cells_increment hbehind
    obtain ⟨hc, -⟩ := lengthCase_content hsize (by omega) hcells
    simp only [increment_increment] at hc hcells
    refine ⟨some ⟨(increment state (tag.length + length.length)).dot, content.length⟩, ?_, ?_⟩
    · rw [Protobuf.pass, (Reading.andThen_some (readVarint_of_isVarint htag h)).1,
        Pass.control_print, htype, switch,
        (Reading.andThen_some (readVarint_of_isVarint hlength hbehind)).1, increment_increment, hc,
        Nat.cast_add, Nat.cast_add, add_assoc]
      rfl
    · rintro c ⟨⟩
      exact ⟨content, rfl, rfl, hcells⟩
  | @unknown _ value htag htype =>
    refine ⟨none, ?_, nofun⟩
    rw [Protobuf.pass, (Reading.andThen_some (readVarint_of_isVarint htag h)).1,
      Pass.control_print]
    have hlt := wireType_lt value
    obtain hv | hv : wireType value = 6 ∨ wireType value = 7 := by omega
    all_goals
      rw [hv]
      rfl

/-- In front of a field that the code rejects it returns. -/
theorem Rejects.pass (hr : Rejects bytes) (hlen : bytes.length < 2 ^ 31)
    (hrem : state.remaining = bytes.length)
    (h : memory.cells state.dot = bytes.map some ++ rest) :
    ∃ final, (pass memory state).control = .emsgsize final := by
  cases hr with
  | @fixed64 tag others value htag htype hshort =>
    rw [List.map_append, List.append_assoc] at h
    rw [List.length_append] at hlen hrem
    have hnext := increment_remaining (by omega) (by omega : tag.length ≤ state.remaining)
    refine ⟨increment state tag.length, ?_⟩
    rw [Protobuf.pass, (Reading.andThen_some (readVarint_of_isVarint htag h)).1,
      Pass.control_print, htype, switch, if_pos ⟨by omega, by omega⟩]
  | @bytes tag length others value size htag htype hlength hshort =>
    rw [List.map_append, List.append_assoc] at h
    rw [List.length_append, List.length_append] at hlen hrem
    have hbehind := cells_increment h
    rw [List.map_append, List.append_assoc] at hbehind
    have hnext := increment_remaining (by omega) (by omega : tag.length ≤ state.remaining)
    have hint : (increment state tag.length).remaining < 2 ^ 31 := by omega
    have hnext' := increment_remaining hint
      (by omega : length.length ≤ (increment state tag.length).remaining)
    refine ⟨increment (increment state tag.length) length.length, ?_⟩
    rw [pass_length (readVarint_of_isVarint htag h) htype
      (readVarint_of_isVarint hlength hbehind)]
    dsimp only [lengthCase]
    rw [if_pos (by omega)]

end Passes

section Unique

/-- The bytes alone, from address 0 on. -/
theorem cells_alone (bytes : List UInt8) :
    Memory.cells (bytes.map some) (⟨0, bytes.length⟩ : Buffer).dot = bytes.map some ++ [] := by
  rw [List.append_nil]
  rfl

theorem Taken.pass_alone {others : List UInt8} (ht : Taken field content)
    (hlen : (field ++ others).length < 2 ^ 31) :
    ∃ chunk, (Protobuf.pass ((field ++ others).map some) ⟨0, (field ++ others).length⟩).control =
      proceed chunk (increment ⟨0, (field ++ others).length⟩ field.length) := by
  have hcells := cells_alone (field ++ others)
  nth_rewrite 2 [List.map_append] at hcells
  rw [List.append_assoc] at hcells
  obtain ⟨c, hc, -⟩ := ht.pass (by dsimp only; omega)
    (by simp only [List.length_append]; omega) hcells
  exact ⟨c, hc⟩

/-- A field that is taken ends where it does, whatever follows. -/
theorem Taken.unique {field' others others' : List UInt8} {content' : Option (List UInt8)}
    (ht : Taken field content) (ht' : Taken field' content')
    (heq : field ++ others = field' ++ others') (hlen : (field ++ others).length < 2 ^ 31) :
    field = field' ∧ others = others' := by
  obtain ⟨c, hc⟩ := ht.pass_alone hlen
  obtain ⟨c', hc'⟩ := ht'.pass_alone (heq ▸ hlen)
  rw [← heq] at hc'
  have hdot := congrArg Buffer.dot (proceed_inj (hc.symm.trans hc'))
  exact List.append_inj heq (by simpa [increment_dot] using hdot)

theorem Rejects.not_taken {others : List UInt8} (hr : Rejects (field ++ others))
    (hlen : (field ++ others).length < 2 ^ 31) : ¬ Taken field content := by
  intro ht
  obtain ⟨final, hc⟩ := hr.pass hlen rfl (cells_alone (field ++ others))
  obtain ⟨c, hc'⟩ := ht.pass_alone hlen
  exact proceed_ne_emsgsize c (hc'.symm.trans hc)

theorem Taken.length_pos (ht : Taken field content) : 0 < field.length := by
  cases ht with
  | payload htag | bytes htag =>
    rw [List.length_append]
    exact Nat.add_pos_left htag.length_pos _
  | unknown htag => exact htag.length_pos

theorem Taken.content_lt (ht : Taken field content) {n : ℕ} (hmem : bytes ∈ content)
    (hlen : field.length < n) : bytes.length < n := by
  cases ht with
  | payload | unknown => cases hmem
  | bytes =>
    cases hmem
    rw [List.length_append, List.length_append] at hlen
    omega

theorem Rejects.length_pos (hr : Rejects bytes) : 0 < bytes.length := by
  cases hr with
  | fixed64 htag | bytes htag =>
    rw [List.length_append]
    exact Nat.add_pos_left htag.length_pos _

theorem not_rejected_nil : ¬ Rejected [] := by
  intro h
  generalize hnil : ([] : List UInt8) = bytes at h
  cases h with
  | here hr => exact absurd hr.length_pos (by simp [← hnil])
  | behind ht =>
    obtain ⟨rfl, -⟩ := List.nil_eq_append_iff.mp hnil
    exact absurd ht.length_pos (lt_irrefl 0)

theorem rejected_cons {others : List UInt8} (ht : Taken field content)
    (hlen : (field ++ others).length < 2 ^ 31) :
    Rejected (field ++ others) ↔ Rejected others := by
  refine ⟨fun h => ?_, .behind ht⟩
  generalize heq : field ++ others = bytes at h
  cases h with
  | here hr =>
    subst heq
    exact absurd ht (hr.not_taken hlen)
  | behind ht' hr =>
    obtain ⟨-, rfl⟩ := ht.unique ht' heq hlen
    exact hr

end Unique

section Runs

/-- The calls for the chunk of a pass return with the same fuel, and with any fuel given. -/
theorem exists_fuel {chunk : Option Buffer} (hr : ∀ c ∈ chunk, Returns memory c) (n : ℕ) :
    ∃ k, n ≤ k ∧ ∀ c ∈ chunk,
      ∃ code final, (parse memory k c).outcome = .returned code final := by
  cases chunk with
  | none => exact ⟨n, le_rfl, nofun⟩
  | some c =>
    obtain ⟨k, code, final, hk⟩ := hr c rfl
    refine ⟨max n k, Nat.le_max_left n k, ?_⟩
    rintro _ ⟨⟩
    exact ⟨code, final, by rw [parse_of_le (by rw [hk]; nofun) (Nat.le_max_right n k), hk]⟩

/-- The call comes to what it comes to behind the field. -/
theorem outcome_proceed {chunk : Option Buffer} {n : ℕ} (hs : notEmpty state)
    (hc : (pass memory state).control = proceed chunk state')
    (hr : ∀ c ∈ chunk, ∃ code final, (parse memory n c).outcome = .returned code final) :
    (parse memory (n + 1) state).outcome = (parse memory n state').outcome := by
  cases chunk with
  | none => rw [parse_next hs hc]; rfl
  | some c =>
    obtain ⟨code, final, ho⟩ := hr c rfl
    rw [parse_chunk_returned hs hc ho]
    rfl

/-- Where the bytes are contained, `parse` returns, and with `EMSGSIZE` exactly when it comes to a
field that it rejects. -/
theorem Contained.returned (h : Contained bytes) (hlen : bytes.length < 2 ^ 31)
    (hrem : state.remaining = bytes.length)
    (hcells : memory.cells state.dot = bytes.map some ++ rest) :
    ∃ fuel code final, (parse memory fuel state).outcome = .returned code final ∧
      (code = .emsgsize ↔ Rejected bytes) := by
  induction h generalizing state rest with
  | nil =>
    have hs : ¬ notEmpty state := by simp [notEmpty, hrem]
    exact ⟨1, .zero, state, by rw [parse_of_empty hs], by simp [not_rejected_nil]⟩
  | @rejects bytes hr =>
    have hpos := hr.length_pos
    have hs : notEmpty state := by unfold notEmpty; omega
    obtain ⟨final, hc⟩ := hr.pass hlen hrem hcells
    exact ⟨1, .emsgsize, final, by rw [parse_emsgsize hs hc]; rfl, by simp [Rejected.here hr]⟩
  | @cons field others content ht _ _ ihcontent ih =>
    have hpos := ht.length_pos
    have hbytes := hlen
    rw [List.length_append] at hlen hrem
    rw [List.map_append, List.append_assoc] at hcells
    have hs : notEmpty state := by unfold notEmpty; omega
    obtain ⟨chunk, hc, hchunk⟩ := ht.pass (by omega) (by omega) hcells
    have hnext := increment_remaining (by omega) (by omega : field.length ≤ state.remaining)
    obtain ⟨n, code, final, ho, hcode⟩ := ih (by omega) (by omega) (cells_increment hcells)
    have hreturns (c : Buffer) (hmem : c ∈ chunk) : Returns memory c := by
      obtain ⟨inner, hinner, hrem, hcells⟩ := hchunk c hmem
      obtain ⟨k, code, final, hk, -⟩ :=
        ihcontent inner hinner (ht.content_lt hinner (by omega)) hrem hcells
      exact ⟨k, code, final, hk⟩
    obtain ⟨k, hnk, hk⟩ := exists_fuel hreturns n
    refine ⟨k + 1, code, final, ?_, by rw [hcode, rejected_cons ht hbytes]⟩
    rw [outcome_proceed hs hc hk, parse_of_le (by rw [ho]; nofun) hnk, ho]

theorem Contained.returns (h : Contained bytes) (hlen : bytes.length < 2 ^ 31)
    (hrem : state.remaining = bytes.length)
    (hcells : memory.cells state.dot = bytes.map some ++ rest) : Returns memory state := by
  obtain ⟨fuel, code, final, ho, -⟩ := h.returned hlen hrem hcells
  exact ⟨fuel, code, final, ho⟩

end Runs

end Redx.Protobuf
