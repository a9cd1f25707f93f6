import Redx.Protobuf.Codec

/-!
# What the parser accepts

A message is a sequence of complete fields. `parse` walks over one as it should, but it also
passes over tags of an unknown wire type, and takes a length modulo 2^32. Where its reads are
contained, it gives the right answer unless it passes over one of these and then finds nothing
to reject.
-/
namespace Redx.Protobuf
open Library

/-- `parse` returns, 0 for a message and `EMSGSIZE` otherwise. -/
def Image.Accepts (image : Image) : Prop :=
  ∃ fuel code final, (parse image.memory fuel image.buffer).outcome = .returned code final ∧
    (code = .zero ↔ Message image.bytes)

/-- Among the fields that are taken one is not complete: it has a wire type of 6 or 7, or a length
other than that of its bytes. -/
inductive Overlooked : List UInt8 → Prop
  | here {field rest : List UInt8} {content : Option (List UInt8)} : Taken field content →
      ¬ IsField field → Overlooked (field ++ rest)
  | behind {field rest : List UInt8} {content : Option (List UInt8)} : Taken field content →
      Overlooked rest → Overlooked (field ++ rest)

variable {memory : Memory} {state : Buffer} {image : Image} {field rest bytes : List UInt8}
  {content : Option (List UInt8)}

section Encodings

theorem isVarint_encodeVarint {value : ℕ} (hvalue : value < 2 ^ 64) :
    IsVarint (encodeVarint value) (UInt64.ofNat value) := by
  have hloop := varintLoop_encodeVarint hvalue []
  rwa [List.append_nil] at hloop

/-- The encoding of a value is a complete payload, when its length fits a varint. -/
theorem payload_encode (value : Value) (hlen : value.encode.length < 2 ^ 64) :
    Payload value.wireType value.encode := by
  cases value with
  | varint value => exact .varint (isVarint_encodeVarint value.toNat_lt)
  | fixed64 value => exact .fixed64 (length_bytesOf _ _)
  | fixed32 value => exact .fixed32 (length_bytesOf _ _)
  | bytes content =>
    rw [Value.encode, List.length_append] at hlen
    have hcontent : content.length < 2 ^ 64 := by omega
    exact .bytes (isVarint_encodeVarint hcontent) (UInt64.toNat_ofNat_of_lt' hcontent).symm

/-- What is encoded is a message. -/
theorem message_encode {fields : List Field} (hlen : (encode fields).length < 2 ^ 64) :
    Message (encode fields) := by
  induction fields with
  | nil => exact .nil
  | cons field fields ih =>
    have hcons : encode (field :: fields) = field.encode ++ encode fields := List.flatMap_cons
    rw [hcons, List.length_append] at hlen
    rw [hcons]
    refine .cons ?_ (ih (by omega))
    rw [Field.encode, List.length_append] at hlen
    have hpayload := payload_encode field.value (by omega)
    rw [← wireType_tag] at hpayload
    exact .field (isVarint_encodeVarint field.tag_lt) hpayload

end Encodings

section Messages

/-- A complete field is taken. -/
theorem IsField.taken (hf : IsField field) (hlen : field.length < 2 ^ 31) :
    ∃ content, Taken field content := by
  obtain @⟨tag, payload, value, htag, hp⟩ := hf
  rw [List.length_append] at hlen
  by_cases htype : wireType value = 2
  · rw [htype] at hp
    cases hp with
    | @bytes length content size hlength hsize =>
      rw [List.length_append] at hlen
      refine ⟨some content, .bytes htag htype hlength ?_⟩
      rw [← hsize]
      exact narrow_eq_self (by omega) (by omega)
  · exact ⟨none, .payload htag htype hp⟩

theorem message_cons (ht : Taken field content) (hlen : (field ++ rest).length < 2 ^ 31) :
    Message (field ++ rest) ↔ IsField field ∧ Message rest := by
  refine ⟨fun h => ?_, fun h => .cons h.1 h.2⟩
  have hpos := ht.length_pos
  generalize heq : field ++ rest = bytes at h
  cases h with
  | nil =>
    obtain ⟨rfl, -⟩ := List.append_eq_nil_iff.mp heq
    exact absurd hpos (lt_irrefl 0)
  | @cons field' rest' hf hm =>
    have hlength : (field' ++ rest').length < 2 ^ 31 := heq ▸ hlen
    rw [List.length_append] at hlength
    obtain ⟨content', ht'⟩ := hf.taken (by omega)
    obtain ⟨rfl, rfl⟩ := ht.unique ht' heq hlen
    exact ⟨hf, hm⟩

theorem Rejects.not_message (hr : Rejects bytes) (hlen : bytes.length < 2 ^ 31) :
    ¬ Message bytes := by
  intro h
  cases h with
  | nil => exact absurd hr.length_pos (lt_irrefl 0)
  | cons hf _ =>
    have hlength := hlen
    rw [List.length_append] at hlength
    obtain ⟨content, ht⟩ := hf.taken (by omega)
    exact hr.not_taken hlen ht

theorem not_overlooked_nil : ¬ Overlooked [] := by
  intro h
  generalize hnil : ([] : List UInt8) = bytes at h
  cases h with
  | here ht | behind ht =>
    obtain ⟨rfl, -⟩ := List.nil_eq_append_iff.mp hnil
    exact absurd ht.length_pos (lt_irrefl 0)

theorem overlooked_cons (ht : Taken field content) (hlen : (field ++ rest).length < 2 ^ 31) :
    Overlooked (field ++ rest) ↔ ¬ IsField field ∨ Overlooked rest := by
  refine ⟨fun h => ?_, fun h => h.elim (.here ht) (.behind ht)⟩
  generalize heq : field ++ rest = bytes at h
  cases h with
  | here ht' hf =>
    obtain ⟨rfl, -⟩ := ht.unique ht' heq hlen
    exact .inl hf
  | behind ht' ho =>
    obtain ⟨-, rfl⟩ := ht.unique ht' heq hlen
    exact .inr ho

/-- The bytes are a message exactly when nothing is overlooked and nothing rejected. -/
theorem Contained.message_iff (h : Contained bytes) (hlen : bytes.length < 2 ^ 31) :
    Message bytes ↔ ¬ Overlooked bytes ∧ ¬ Rejected bytes := by
  induction h with
  | nil => exact iff_of_true .nil ⟨not_overlooked_nil, not_rejected_nil⟩
  | rejects hr => exact iff_of_false (hr.not_message hlen) fun h => h.2 (.here hr)
  | cons ht _ _ _ ih =>
    have hlength := hlen
    rw [List.length_append] at hlength
    rw [message_cons ht hlen, overlooked_cons ht hlen, rejected_cons ht hlen, ih (by omega)]
    tauto

end Messages

theorem returned_unique {m n : ℕ} {c d : Code} {final final' : Buffer}
    (hm : (parse memory m state).outcome = .returned c final)
    (hn : (parse memory n state).outcome = .returned d final') : c = d := by
  have heq : (parse memory m state).outcome = (parse memory n state).outcome := by
    rcases Nat.le_total m n with hle | hle
    · rw [parse_of_le (by rw [hm]; nofun) hle]
    · rw [parse_of_le (by rw [hn]; nofun) hle]
  rw [hm, hn] at heq
  cases heq
  rfl

/-- Of a file whose fields are contained, `parse` tells whether it is a message exactly when,
behind a field that it overlooks, there is one that it rejects. -/
theorem accepts_iff (image : Image) (hlen : image.bytes.length < 2 ^ 31)
    (h : Contained image.bytes) :
    image.Accepts ↔ (Overlooked image.bytes → Rejected image.bytes) := by
  have hrem : image.buffer.remaining = image.bytes.length :=
    narrow_eq_self (by omega) (by omega)
  obtain ⟨fuel, code, final, ho, hcode⟩ := h.returned hlen hrem image.cells
  have hzero : code = .zero ↔ ¬ Rejected image.bytes := by
    rw [← hcode]
    cases code <;> simp
  have hmessage := h.message_iff hlen
  constructor
  · rintro ⟨fuel', code', final', ho', haccept⟩ hoverlooked
    rw [returned_unique ho' ho, hzero, hmessage] at haccept
    by_contra hrejected
    exact (haccept.mp hrejected).1 hoverlooked
  · intro hrejected
    refine ⟨fuel, code, final, ho, ?_⟩
    rw [hzero, hmessage]
    tauto

section Mixed

/-- An unknown tag, a byte string that is a message, and eight bytes of which one is left. -/
def mixed : Image := ⟨[], [0x06, 0x0A, 0x02, 0x08, 0x05, 0x09, 0x00], [none]⟩

theorem taken_unknown : Taken [0x06] none :=
  @Taken.unknown _ 6 (by decide +kernel) (by decide)

theorem taken_nested : Taken ([0x0A] ++ ([0x02] ++ [0x08, 0x05])) (some [0x08, 0x05]) :=
  @Taken.bytes _ _ _ 10 2 (by decide +kernel) (by decide) (by decide +kernel) (by decide +kernel)

theorem rejects_short : Rejects ([0x09] ++ [0x00]) :=
  @Rejects.fixed64 _ _ 9 (by decide +kernel) (by decide) (by decide)

theorem contained_mixed : Contained mixed.bytes := by
  refine .cons taken_unknown nofun (.cons taken_nested ?_ (.rejects rejects_short))
  rintro _ ⟨⟩
  exact .cons taken_varint nofun .nil

theorem accepts_iff_mixed : mixed.Accepts :=
  (accepts_iff mixed (by decide) contained_mixed).mpr fun _ =>
    .behind taken_unknown (.behind taken_nested (.here rejects_short))

end Mixed

/-- A file of one tag with the wire type 6. -/
def unknown : Image := ⟨[], [0x06], []⟩

theorem not_message_unknown : ¬ Message unknown.bytes := by
  intro h
  generalize hbytes : unknown.bytes = bytes at h
  cases h with
  | nil => cases hbytes
  | @cons field rest hf hm =>
    obtain @⟨tag, payload, value, htag, hpayload⟩ := hf
    -- a tag is not empty, so that this one is the whole file
    obtain ⟨x, tag, rfl⟩ := List.exists_cons_of_length_pos htag.length_pos
    obtain ⟨rfl, htail⟩ := List.cons.inj hbytes
    obtain ⟨rfl, rfl, rfl⟩ : tag = [] ∧ payload = [] ∧ rest = [] := by
      simpa using htail.symm
    obtain rfl : 6 = value := Option.some.inj (Prod.mk.inj htag).2
    cases hpayload

theorem unknown_not_accepted : ¬ unknown.Accepts := by
  rintro ⟨fuel, code, final, ho, hcode⟩
  have hzero : (parse unknown.memory 2 unknown.buffer).outcome = .returned .zero ⟨1, 0⟩ := by
    decide +kernel
  exact not_message_unknown (hcode.mp (returned_unique ho hzero))

end Redx.Protobuf
