import Redx.Library.Memory
import Redx.Xuid.Agree

/-!
# Text that is not a UUID

`UUID::set`, `parse_uuid` and `parse_guid` look at fixed offsets of the text and report success
whatever they find there.
-/
namespace Redx.Xuid
open Library
open Monitor (UUID)

variable {α : Type*}

/-- A function that reads a UUID from text: the offsets that it looks at, and the status and the
value that it makes of the bytes there. -/
structure TextReader (α : Type*) where
  reads : List ℕ
  result : (ℕ → UInt8) → Bool × α

/-- A call has no result when some offset is not mapped. -/
def TextReader.call (f : TextReader α) (memory : Memory) (input : ℕ) : Option (Bool × α) :=
  if ∀ i ∈ f.reads, (memory.read (input + i)).isSome then
    some (f.result fun i => (memory.read (input + i)).getD 0)
  else none

/-- The offsets of the digits, in the order of the text. -/
def digitOffsets : List ℕ := List.range 8 ++ List.range' 9 4 ++ List.range' 14 4 ++
  List.range' 19 4 ++ List.range' 24 12

/-- `UUID::set(char *)`: the text is copied with the byte at its end. -/
def set : TextReader UUID := ⟨List.range 37, fun s => (true, .ofString fun c => s c)⟩

/-- `parse_uuid` -/
def parse_uuid : TextReader Uuid := ⟨digitOffsets, fun s => (true, parseUuid fun c => s c)⟩

/-- `parse_guid` -/
def parse_guid : TextReader Guid := ⟨digitOffsets, fun s => (true, parseGuid fun c => s c)⟩

/-- Thirty-six characters, digits with hyphens at the columns 8, 13, 18 and 23. -/
def IsUuidText (s : List UInt8) : Prop := ∃ t : Text, WellFormed t ∧ s = List.ofFn t

/-- The call does not read past the terminator of the text, and reports success only for the text
of a UUID; for other text it reports failure and keeps the value. -/
def TextReader.Validates (f : TextReader α) (memory : Memory) (input : ℕ) (old : α)
    (s : List UInt8) : Prop :=
  (∀ i ∈ f.reads, i ≤ s.length) ∧ ∃ status value, f.call memory input = some (status, value) ∧
    (status = true → IsUuidText s) ∧ (¬ IsUuidText s → status = false ∧ value = old)

variable {f : TextReader α} {memory : Memory} {input : ℕ} {s : List UInt8}

theorem IsUuidText.length (h : IsUuidText s) : s.length = 36 := by
  obtain ⟨t, -, rfl⟩ := h
  exact List.length_ofFn

/-- What lies up to the terminator is mapped. -/
theorem isSome_of_stringAt (h : memory.StringAt input s) {i : ℕ} (hi : i ≤ s.length) :
    (memory.read (input + i)).isSome := by
  rw [h.2.read (by rw [List.length_append, List.length_singleton]; omega)]
  rfl

/-- A reader of no more than thirty-seven bytes that always reports success validates exactly the
text of a UUID. -/
theorem TextReader.validates_iff (hsuccess : ∀ bytes, (f.result bytes).1 = true)
    (hreads : ∀ i ∈ f.reads, i ≤ 36) (h : memory.StringAt input s) (old : α) :
    f.Validates memory input old s ↔ IsUuidText s := by
  constructor
  · rintro ⟨-, status, value, hcall, hvalid, -⟩
    rw [call] at hcall
    split_ifs at hcall
    have hstatus := congrArg Prod.fst (Option.some.inj hcall)
    rw [hsuccess] at hstatus
    exact hvalid hstatus.symm
  · intro htext
    have hbound : ∀ i ∈ f.reads, i ≤ s.length := by
      rw [htext.length]
      exact hreads
    refine ⟨hbound, _, _, if_pos fun i hi => isSome_of_stringAt h (hbound i hi), ?_, ?_⟩
    · exact fun _ => htext
    · exact fun hnot => absurd htext hnot

/-- The functions validate exactly the text of a UUID. `set` reads past the terminator of any
text below thirty-six characters, the parsers past that of any below thirty-five. -/
theorem text_validation_iff {memory : Memory} {input : ℕ} {s : List UInt8}
    (h : memory.StringAt input s) (uuid : UUID) (data : Uuid) (guid : Guid) :
    (set.Validates memory input uuid s ↔ IsUuidText s) ∧
    (parse_uuid.Validates memory input data s ↔ IsUuidText s) ∧
    (parse_guid.Validates memory input guid s ↔ IsUuidText s) ∧
    ((∀ i ∈ set.reads, i ≤ s.length) ↔ 36 ≤ s.length) ∧
    ((∀ i ∈ parse_uuid.reads, i ≤ s.length) ↔ 35 ≤ s.length) ∧
    ((∀ i ∈ parse_guid.reads, i ≤ s.length) ↔ 35 ≤ s.length) := by
  have hset : ∀ i ∈ set.reads, i ≤ 36 := by decide
  have hdigits : ∀ i ∈ digitOffsets, i ≤ 35 := by decide
  have hparse : (∀ i ∈ digitOffsets, i ≤ s.length) ↔ 35 ≤ s.length :=
    ⟨fun hall => hall 35 (by decide), fun hle i hi => (hdigits i hi).trans hle⟩
  refine ⟨TextReader.validates_iff (fun _ => rfl) hset h uuid, ?_, ?_, ?_, hparse, hparse⟩
  · exact TextReader.validates_iff (fun _ => rfl) (fun i hi => (hdigits i hi).trans (by decide)) h _
  · exact TextReader.validates_iff (fun _ => rfl) (fun i hi => (hdigits i hi).trans (by decide)) h _
  · exact ⟨fun hall => hall 36 (by decide), fun hle i hi => (hset i hi).trans hle⟩

/-- Thirty-six times the letter `z`. -/
def letters : List UInt8 := List.replicate 36 122

def lettersMemory : Memory := Memory.empty.write 0 (letters ++ [0])

theorem lettersMemory_stringAt : lettersMemory.StringAt 0 letters :=
  ⟨by decide, Memory.holds_write _ 0 _⟩

theorem text_validation_iff_letters :
    (set.Validates lettersMemory 0 (.ofData fun _ => 0) letters ↔ IsUuidText letters) ∧
    (parse_uuid.Validates lettersMemory 0 (fun _ => 0) letters ↔ IsUuidText letters) ∧
    (parse_guid.Validates lettersMemory 0 ⟨0, 0, 0, fun _ => 0⟩ letters ↔ IsUuidText letters) :=
  have h := text_validation_iff lettersMemory_stringAt (.ofData fun _ => 0) (fun _ => 0)
    ⟨0, 0, 0, fun _ => 0⟩
  ⟨h.1, h.2.1, h.2.2.1⟩

/-- All three report success for the letters. -/
theorem letters_accepted : lettersMemory.StringAt 0 letters ∧
    (∀ old, ¬ set.Validates lettersMemory 0 old letters) ∧
    (∀ old, ¬ parse_uuid.Validates lettersMemory 0 old letters) ∧
    ∀ old, ¬ parse_guid.Validates lettersMemory 0 old letters := by
  have hnot : ¬ IsUuidText letters := by
    rintro ⟨t, ht, heq⟩
    have hfirst : t 0 = 122 := by
      have := congrArg (·[0]?) heq
      simpa [letters] using this.symm
    have hhex := ht 0
    rw [if_neg (by decide), hfirst] at hhex
    exact absurd hhex (by decide)
  have hstring := lettersMemory_stringAt
  refine ⟨hstring, fun old h => hnot ?_, fun old h => hnot ?_, fun old h => hnot ?_⟩
  · exact (TextReader.validates_iff (fun _ => rfl) (by decide) hstring old).mp h
  · exact (TextReader.validates_iff (fun _ => rfl) (by decide) hstring old).mp h
  · exact (TextReader.validates_iff (fun _ => rfl) (by decide) hstring old).mp h

end Redx.Xuid
