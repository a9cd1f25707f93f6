import Redx.Protobuf.Grammar

/-!
# Decoding what was encoded

The canonical encoding of a list of fields, and when `parse` reports the fields again. It keeps
the field number in an `unsigned char`, and it parses every byte string again as a message,
which may end the process or not end at all.
-/
namespace Redx.Protobuf
open Library

variable {memory : Memory} {state : Buffer} {rest : List (Option UInt8)}

inductive Value where
  | varint (value : UInt64)
  | fixed64 (value : UInt64)
  | fixed32 (value : UInt32)
  | bytes (content : List UInt8)
  deriving DecidableEq, Repr

/-- A field of a message; its number has 29 bits. -/
structure Field where
  number : ℕ
  value : Value
  number_pos : 0 < number
  number_lt : number < 2 ^ 29

namespace Value

def wireType : Value → ℕ
  | varint _ => 0
  | fixed64 _ => 1
  | bytes _ => 2
  | fixed32 _ => 5

def encode : Value → List UInt8
  | varint value => encodeVarint value.toNat
  | fixed64 value => bytesOf 8 value.toNat
  | fixed32 value => bytesOf 4 value.toNat
  | bytes content => encodeVarint content.length ++ content

/-- What is to be printed for the value after the line of its tag. -/
def lines : Value → List Line
  | varint value => [.varint value]
  | fixed64 value => [.fixed64 value.toNat]
  | fixed32 value => [.fixed32 value.toNat]
  | bytes content => [.length content.length, .bytes content, .begin, .finish]

/-- Where the byte string lies when the encoding of the value is at an address. -/
def chunk (address : ℤ) : Value → Option Buffer
  | bytes content => some ⟨address + (encodeVarint content.length).length, content.length⟩
  | _ => none

theorem wireType_lt (value : Value) : value.wireType < 8 := by
  cases value <;> simp [wireType]

end Value

namespace Field

def tag (field : Field) : ℕ := 8 * field.number + field.value.wireType

def encode (field : Field) : List UInt8 := encodeVarint field.tag ++ field.value.encode

/-- The lines for a field whose number is reported as `number`. -/
def lines (field : Field) (number : ℕ) : List Line :=
  .tag (UInt64.ofNat field.tag) number field.value.wireType :: field.value.lines

def chunk (address : ℤ) (field : Field) : Option Buffer :=
  field.value.chunk (address + (encodeVarint field.tag).length)

theorem tag_lt (field : Field) : field.tag < 2 ^ 64 := by
  have hnumber := field.number_lt
  have htype := field.value.wireType_lt
  unfold tag
  omega

end Field

/-- The canonical encoding of a list of fields. -/
def encode (fields : List Field) : List UInt8 := fields.flatMap Field.encode

/-- Where the byte strings of the fields lie, when their encoding is at an address. -/
def chunks : ℤ → List Field → List Buffer
  | _, [] => []
  | address, field :: fields =>
    (field.chunk address).toList ++ chunks (address + field.encode.length) fields

/-- The lines that are not printed in a call for a chunk. -/
def Trace.outermost (trace : Trace) : List Line :=
  trace.lines.filterMap fun line => if line.1 = 0 then some line.2 else none

/-- `parse` returns 0, with the whole encoding consumed, and has reported the fields in order. -/
def Decodes (memory : Memory) (state : Buffer) (fields : List Field) : Prop :=
  ∃ fuel, (parse memory fuel state).outcome =
      .returned .zero ⟨state.dot + (encode fields).length, 0⟩ ∧
    (parse memory fuel state).outermost = fields.flatMap fun field => field.lines field.number

/-- What is printed when the call for the chunk is over. -/
def closing (chunk : Option Buffer) : List Line :=
  match chunk with
  | none => []
  | some _ => [.finish]

section Passes

theorem readFixed_bytesOf {width value : ℕ} (hvalue : value < 256 ^ width)
    (h : memory.cells state.dot = (bytesOf width value).map some ++ rest) :
    (readFixed width memory state).result = some (value, increment state width) := by
  rw [readFixed_of_cells (length_bytesOf _ _) h, ofBytes_bytesOf, Nat.mod_eq_of_lt hvalue]

theorem switch_encode (value : Value) (hint : state.remaining < 2 ^ 31)
    (hfit : value.encode.length ≤ state.remaining)
    (h : memory.cells state.dot = value.encode.map some ++ rest) :
    (switch memory state value.wireType).control =
        proceed (value.chunk state.dot) (increment state value.encode.length) ∧
      (switch memory state value.wireType).lines ++ closing (value.chunk state.dot) =
        value.lines := by
  cases value with
  | varint value =>
    have hr := readVarint_encodeVarint value.toNat_lt h
    rw [UInt64.ofNat_toNat] at hr
    simp only [Value.wireType, switch]
    rw [(Reading.andThen_some hr).1, (Reading.andThen_some hr).2]
    exact ⟨rfl, rfl⟩
  | fixed64 value =>
    have hr := readFixed_bytesOf value.toNat_lt h
    simp only [Value.encode, length_bytesOf] at hfit
    simp only [Value.wireType, switch]
    rw [if_neg (by omega), read64bit, (Reading.andThen_some hr).1, (Reading.andThen_some hr).2,
      Value.encode, length_bytesOf]
    exact ⟨rfl, rfl⟩
  | fixed32 value =>
    have hr := readFixed_bytesOf value.toNat_lt h
    simp only [Value.wireType, switch]
    rw [read32bit, (Reading.andThen_some hr).1, (Reading.andThen_some hr).2, Value.encode,
      length_bytesOf]
    exact ⟨rfl, rfl⟩
  | bytes content =>
    rw [Value.encode, List.map_append, List.append_assoc] at h
    rw [Value.encode, List.length_append] at hfit
    have hr := readVarint_encodeVarint (by omega : content.length < 2 ^ 64) h
    have hcells := cells_increment h
    have hrem := increment_remaining hint (by omega :
      (encodeVarint content.length).length ≤ state.remaining)
    have hsize : narrow (UInt64.ofNat content.length).toNat = content.length := by
      rw [UInt64.toNat_ofNat_of_lt' (show content.length < 2 ^ 64 by omega)]
      exact narrow_eq_self (by omega) (by omega)
    obtain ⟨hcontrol, hlines⟩ := lengthCase_content hsize (by omega) hcells
    rw [increment_increment, increment_dot] at hcontrol
    simp only [Value.wireType, switch]
    rw [(Reading.andThen_some hr).1, (Reading.andThen_some hr).2, Value.encode,
      List.length_append, Nat.cast_add, hcontrol, hlines]
    exact ⟨rfl, rfl⟩

theorem wireType_tag (field : Field) :
    wireType (UInt64.ofNat field.tag) = field.value.wireType := by
  have htype := field.value.wireType_lt
  rw [wireType, UInt64.toNat_and, UInt64.toNat_ofNat_of_lt' field.tag_lt]
  have := Nat.and_two_pow_sub_one_eq_mod field.tag 3
  simp only [UInt64.toNat_ofNat, Nat.reducePow, Nat.reduceMod, Nat.reduceSub] at this ⊢
  rw [this, Field.tag]
  omega

/-- The number that `parse` reports is the low byte of the one encoded. -/
theorem fieldNumber_tag (field : Field) :
    fieldNumber (UInt64.ofNat field.tag) = field.number % 256 := by
  have htype := field.value.wireType_lt
  rw [fieldNumber, UInt64.toNat_toUInt8, UInt64.toNat_shiftRight,
    UInt64.toNat_ofNat_of_lt' field.tag_lt, Nat.shiftRight_eq_div_pow]
  simp only [UInt64.toNat_ofNat, Nat.reducePow, Nat.reduceMod]
  rw [Field.tag]
  omega

/-- The pass over the encoding of a field. -/
theorem pass_encode (field : Field) (hint : state.remaining < 2 ^ 31)
    (hfit : field.encode.length ≤ state.remaining)
    (h : memory.cells state.dot = field.encode.map some ++ rest) :
    (pass memory state).control =
        proceed (field.chunk state.dot) (increment state field.encode.length) ∧
      (pass memory state).lines ++ closing (field.chunk state.dot) =
        field.lines (field.number % 256) := by
  rw [Field.encode, List.map_append, List.append_assoc] at h
  rw [Field.encode, List.length_append] at hfit
  have hr := readVarint_encodeVarint field.tag_lt h
  have hcells := cells_increment h
  have hrem := increment_remaining hint (by omega :
    (encodeVarint field.tag).length ≤ state.remaining)
  obtain ⟨hcontrol, hlines⟩ := switch_encode field.value (by omega) (by omega) hcells
  rw [increment_increment, increment_dot] at hcontrol
  rw [increment_dot] at hlines
  rw [pass, (Reading.andThen_some hr).1, (Reading.andThen_some hr).2, Pass.control_print,
    Pass.lines_print, wireType_tag, fieldNumber_tag, Field.encode,
    List.length_append, Nat.cast_add, List.cons_append]
  exact ⟨hcontrol, congrArg (Line.tag _ _ _ :: ·) hlines⟩

end Passes

section Decoding

theorem Trace.outermost_after (pass : Pass) (trace : Trace) :
    (trace.after pass).outermost = pass.lines ++ trace.outermost := by
  unfold outermost after
  rw [List.filterMap_append]
  congr 1
  induction pass.lines with
  | nil => rfl
  | cons line lines ih => rw [List.map_cons, List.filterMap_cons, ih]; rfl

/-- Nothing that the call for a chunk prints is at the outermost level. -/
theorem Trace.outermost_inside (chunk : Buffer) (trace : Trace) :
    (trace.inside chunk).outermost = [] := by
  unfold outermost inside
  rw [List.filterMap_map, List.filterMap_eq_nil_iff]
  intro line _
  simp

/-- The outermost lines of a run over the encoding of a field and what follows it. -/
theorem outermost_parse_field {field : Field} {next : Buffer} {n : ℕ} (hs : notEmpty state)
    (hc : (pass memory state).control = proceed (field.chunk state.dot) next)
    (hl : (pass memory state).lines ++ closing (field.chunk state.dot) =
      field.lines (field.number % 256))
    (hr : ∀ c ∈ field.chunk state.dot,
      ∃ code final, (parse memory n c).outcome = .returned code final) :
    (parse memory (n + 1) state).outermost =
      field.lines (field.number % 256) ++ (parse memory n next).outermost := by
  cases hchunk : field.chunk state.dot with
  | none =>
    rw [hchunk] at hc hl
    rw [parse_next hs hc, Trace.outermost_after, ← hl, closing, List.append_nil]
  | some c =>
    rw [hchunk] at hc hl
    obtain ⟨code, final, ho⟩ := hr c hchunk
    have hinside := Trace.outermost_inside c (parse memory n c)
    rw [parse_chunk_returned hs hc ho, Trace.outermost_after, ← hl, List.append_assoc]
    refine congrArg _ ?_
    unfold Trace.outermost at *
    rw [List.filterMap_append, hinside]
    rfl

theorem Field.lines_append_inj {field : Field} {m n : ℕ} {xs ys : List Line} :
    field.lines m ++ xs = field.lines n ++ ys ↔ m = n ∧ xs = ys := by
  simp [lines]

theorem Field.encode_length_pos (field : Field) : 0 < field.encode.length := by
  have := encodeVarint_length_pos field.tag
  rw [encode, List.length_append]
  omega

theorem end_cons (field : Field) (fields : List Field) :
    state.dot + (encode (field :: fields)).length =
      (increment state field.encode.length).dot + (encode fields).length := by
  simp only [encode, List.flatMap_cons, List.length_append, Nat.cast_add, increment_dot, add_assoc]

/-- When the fields are reported, the call for the byte string of the first one has returned. -/
theorem Decodes.uncons {field : Field} {fields : List Field} (hs : notEmpty state)
    (hc : (pass memory state).control =
      proceed (field.chunk state.dot) (increment state field.encode.length))
    (hl : (pass memory state).lines ++ closing (field.chunk state.dot) =
      field.lines (field.number % 256))
    (h : Decodes memory state (field :: fields)) :
    field.number < 256 ∧ (∀ c ∈ field.chunk state.dot, Returns memory c) ∧
      Decodes memory (increment state field.encode.length) fields := by
  obtain ⟨fuel, ho, hlines⟩ := h
  cases fuel with
  | zero => cases ho
  | succ n =>
    have hr (c : Buffer) (hchunk : c ∈ field.chunk state.dot) :
        ∃ code final, (parse memory n c).outcome = .returned code final := by
      by_contra hcut
      rw [Option.mem_def.mp hchunk, proceed] at hc
      rw [parse_chunk_cut hs hc hcut] at ho
      exact hcut ⟨_, _, ho⟩
    rw [outermost_parse_field hs hc hl hr, List.flatMap_cons, Field.lines_append_inj] at hlines
    rw [end_cons, outcome_proceed hs hc hr] at ho
    exact ⟨by omega, fun c hchunk => ⟨n, hr c hchunk⟩, n, ho, hlines.2⟩

theorem Decodes.cons {field : Field} {fields : List Field} (hs : notEmpty state)
    (hc : (pass memory state).control =
      proceed (field.chunk state.dot) (increment state field.encode.length))
    (hl : (pass memory state).lines ++ closing (field.chunk state.dot) =
      field.lines (field.number % 256))
    (hnumber : field.number < 256) (hr : ∀ c ∈ field.chunk state.dot, Returns memory c)
    (h : Decodes memory (increment state field.encode.length) fields) :
    Decodes memory state (field :: fields) := by
  obtain ⟨n, ho, hlines⟩ := h
  obtain ⟨k, hnk, hk⟩ := exists_fuel hr n
  have hn := parse_of_le (by rw [ho]; nofun) hnk
  refine ⟨k + 1, by rw [outcome_proceed hs hc hk, hn, ho, end_cons], ?_⟩
  rw [outermost_parse_field hs hc hl hk, hn, hlines, Nat.mod_eq_of_lt hnumber, List.flatMap_cons]

/-- One field is reported, with the fields after it, when its number fits a byte and the call
for its byte string returns. -/
theorem decodes_cons {field : Field} {fields : List Field}
    (hint : state.remaining < 2 ^ 31)
    (hfit : field.encode.length ≤ state.remaining)
    (h : memory.cells state.dot = field.encode.map some ++ rest) :
    Decodes memory state (field :: fields) ↔ field.number < 256 ∧
      (∀ c ∈ field.chunk state.dot, Returns memory c) ∧
      Decodes memory (increment state field.encode.length) fields := by
  have hpos := field.encode_length_pos
  have hs : notEmpty state := by unfold notEmpty; omega
  obtain ⟨hc, hl⟩ := pass_encode field hint hfit h
  exact ⟨fun h => h.uncons hs hc hl, fun ⟨hnumber, hr, h⟩ => h.cons hs hc hl hnumber hr⟩

theorem decodes_nil (h : state.remaining = 0) : Decodes memory state [] := by
  have hs : ¬ notEmpty state := by unfold notEmpty; omega
  refine ⟨1, ?_⟩
  rw [parse_of_empty hs, encode, List.flatMap_nil, List.length_nil, Nat.cast_zero, add_zero, ← h]
  exact ⟨rfl, rfl⟩

theorem decodes_iff_returns {fields : List Field} (hrem : state.remaining = (encode fields).length)
    (hint : state.remaining < 2 ^ 31)
    (h : memory.cells state.dot = (encode fields).map some ++ rest) :
    Decodes memory state fields ↔ (∀ field ∈ fields, field.number < 256) ∧
      ∀ c ∈ chunks state.dot fields, Returns memory c := by
  induction fields generalizing state with
  | nil => simp [decodes_nil hrem, chunks]
  | cons field fields ih =>
    have hcons : encode (field :: fields) = field.encode ++ encode fields := List.flatMap_cons
    rw [hcons, List.length_append] at hrem
    rw [hcons, List.map_append, List.append_assoc] at h
    have hfit : field.encode.length ≤ state.remaining := by omega
    have hcells := cells_increment h
    have hnext := increment_remaining hint hfit
    rw [decodes_cons hint hfit h, ih (by omega) (by omega) hcells, increment_dot]
    simp only [List.forall_mem_cons, chunks, List.mem_append, Option.mem_toList, or_imp,
      forall_and]
    tauto

/-- The byte strings of the fields are where their encoding has them. -/
theorem cells_of_mem_chunks {fields : List Field} {c : Buffer}
    (h : memory.cells state.dot = (encode fields).map some ++ rest)
    (hc : c ∈ chunks state.dot fields) :
    ∃ field ∈ fields, ∃ content, field.value = .bytes content ∧ c.remaining = content.length ∧
      content.length ≤ (encode fields).length ∧
      ∃ others, memory.cells c.dot = content.map some ++ others := by
  induction fields generalizing state with
  | nil => cases hc
  | cons field fields ih =>
    have hcons : encode (field :: fields) = field.encode ++ encode fields := List.flatMap_cons
    rw [hcons, List.map_append, List.append_assoc] at h
    rw [hcons, List.length_append]
    rcases List.mem_append.mp hc with hc | hc
    · have hchunk := Option.mem_toList.mp hc
      cases hv : field.value with
      | varint _ | fixed64 _ | fixed32 _ =>
        rw [Field.chunk, hv] at hchunk
        cases hchunk
      | bytes content =>
        rw [Field.chunk, hv] at hchunk
        obtain rfl := Option.some.inj hchunk
        rw [Field.encode, hv, Value.encode, List.map_append, List.map_append, List.append_assoc,
          List.append_assoc] at h
        have hbehind := cells_increment (cells_increment h)
        refine ⟨field, List.mem_cons_self, content, hv, rfl, ?_, _, hbehind⟩
        rw [Field.encode, hv, Value.encode, List.length_append, List.length_append]
        omega
    · have hnext := cells_increment h
      rw [← increment_dot] at hc
      obtain ⟨g, hg, content, hv, hrem, hle, hcells⟩ := ih hnext hc
      exact ⟨g, List.mem_cons_of_mem _ hg, content, hv, hrem, by omega, hcells⟩

theorem Image.decodes_iff_returns {before after : Memory} {fields : List Field}
    (h : (encode fields).length < 2 ^ 31) :
    Decodes (Image.mk before (encode fields) after).memory
        (Image.mk before (encode fields) after).buffer fields ↔
      (∀ field ∈ fields, field.number < 256) ∧
        ∀ c ∈ chunks before.length fields,
          Returns (Image.mk before (encode fields) after).memory c := by
  have hrem : (Image.mk before (encode fields) after).buffer.remaining = (encode fields).length :=
    narrow_eq_self (by dsimp only; omega) (by dsimp only; omega)
  exact Protobuf.decodes_iff_returns hrem (by omega) (Image.cells _)

end Decoding

/-- Where the byte strings of a list of fields are contained, `parse` reports the fields of its
encoding, returns 0 and has consumed all of it exactly when every field number fits a byte. -/
theorem decodes_iff (before after : Memory) (fields : List Field)
    (h : (encode fields).length < 2 ^ 31)
    (hcontained : ∀ field ∈ fields, ∀ content, field.value = .bytes content →
      Contained content) :
    Decodes (Image.mk before (encode fields) after).memory
        (Image.mk before (encode fields) after).buffer fields ↔
      ∀ field ∈ fields, field.number < 256 := by
  rw [Image.decodes_iff_returns h]
  refine and_iff_left fun c hc => ?_
  change c ∈ chunks (Image.mk before (encode fields) after).buffer.dot fields at hc
  obtain ⟨field, hfield, content, hv, hrem, hle, others, hcells⟩ :=
    cells_of_mem_chunks (Image.cells (Image.mk before (encode fields) after)) hc
  exact (hcontained field hfield content hv).returns (by omega) hrem hcells

section Example

/-- A varint, a message as a byte string, and a byte string that ends in the middle of a field. -/
def sample : List Field :=
  [⟨1, .varint 150, by decide, by decide⟩, ⟨2, .bytes [0x08, 0x05], by decide, by decide⟩,
    ⟨255, .bytes [0x08, 0x05, 0x0A, 0x7F], by decide, by decide⟩]

theorem taken_varint : Taken ([0x08] ++ [0x05]) none :=
  @Taken.payload _ _ 8 (by decide +kernel) (by decide) (@Payload.varint _ 5 (by decide +kernel))

theorem contained_sample : ∀ field ∈ sample, ∀ content, field.value = .bytes content →
    Contained content := by
  have hnext : Contained ([0x0A] ++ ([0x7F] ++ [])) :=
    .rejects (@Rejects.bytes _ _ _ 10 127 (by decide +kernel) (by decide) (by decide +kernel)
      (by decide +kernel))
  simp only [sample, List.forall_mem_cons, Value.bytes.injEq]
  refine ⟨nofun, ?_, ?_, nofun⟩
  · rintro _ rfl
    exact .cons taken_varint nofun .nil
  · rintro _ rfl
    exact .cons taken_varint nofun hnext

theorem decodes_iff_sample :
    Decodes (Image.mk [] (encode sample) []).memory (Image.mk [] (encode sample) []).buffer
      sample :=
  (decodes_iff [] [] sample (by decide +kernel) contained_sample).mpr (by decide)

end Example

/-- The least number that does not fit an `unsigned char`. -/
def wide : Field := ⟨256, .varint 0, by decide, by decide⟩

theorem wide_not_decoded :
    ¬ Decodes (Image.mk [] (encode [wide]) []).memory (Image.mk [] (encode [wide]) []).buffer
      [wide] := by
  rw [Image.decodes_iff_returns (by decide +kernel)]
  intro h
  exact absurd (h.1 wide (List.mem_singleton.mpr rfl)) (by decide)

end Redx.Protobuf
