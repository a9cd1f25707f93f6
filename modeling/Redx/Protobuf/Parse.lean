import Redx.Library.Bytes
import Mathlib.Data.Int.Notation

/-!
# The protobuf parser

`parse` walks the fields of a buffer and parses each length-delimited one again as a message of
its own. The bytes lie in an address space of which other parts may be mapped or not, and the
model records every byte that is read there and every line that is printed.
-/
namespace Redx.Protobuf
open Library

/-- An address space from address 0 on; `none`, like any address past the end, is not mapped. -/
abbrev Memory := List (Option UInt8)

/-- What is mapped from an address on. -/
def Memory.cells (memory : Memory) (address : ℤ) : List (Option UInt8) :=
  if address < 0 then [] else memory.drop address.toNat

theorem Memory.cells_add {memory : Memory} {address : ℤ} {xs ys : List (Option UInt8)}
    (h : memory.cells address = xs ++ ys) : memory.cells (address + xs.length) = ys := by
  unfold cells at *
  split at h
  · obtain ⟨rfl, rfl⟩ := List.nil_eq_append_iff.mp h
    simp_all
  · rw [if_neg (by omega), show (address + xs.length).toNat = address.toNat + xs.length by omega]
    rw [← List.drop_drop, h, List.drop_left]

/-- A number stored in an `int`. -/
def narrow (x : ℤ) : ℤ := Int.bmod x (2 ^ 32)

theorem narrow_eq_self {x : ℤ} (h₀ : -2 ^ 31 ≤ x) (h : x < 2 ^ 31) : narrow x = x :=
  Int.bmod_eq_of_le_mul_two (by omega) (by omega)

/-- The values of an `int`. -/
def IsInt (x : ℤ) : Prop := -2 ^ 31 ≤ x ∧ x < 2 ^ 31

theorem isInt_narrow (x : ℤ) : IsInt (narrow x) := by
  have h₁ := Int.le_bmod (x := x) (m := 2 ^ 32) (by decide)
  have h₂ := Int.bmod_lt (x := x) (m := 2 ^ 32) (by decide)
  unfold narrow IsInt
  omega

theorem narrow_narrow_sub (x y : ℤ) : narrow (narrow x - y) = narrow (x - y) :=
  Int.bmod_sub_bmod

attribute [irreducible] narrow

/-- What `parse` uses of a `struct buffer`. -/
structure Buffer where
  dot : ℤ
  remaining : ℤ
  deriving DecidableEq, Repr

def increment (state : Buffer) (size : ℤ) : Buffer :=
  ⟨state.dot + size, narrow (state.remaining - size)⟩

def notEmpty (state : Buffer) : Prop := state.remaining > 0

instance (state : Buffer) : Decidable (notEmpty state) := by unfold notEmpty; infer_instance

/-- The addresses from `base` up to, and without, `base + count`. -/
structure Span where
  base : ℤ
  count : ℕ
  deriving DecidableEq, Repr

def Span.Within (s t : Span) : Prop := t.base ≤ s.base ∧ s.base + s.count ≤ t.base + t.count

instance (s t : Span) : Decidable (s.Within t) := by unfold Span.Within; infer_instance

/-- A read of some bytes: the addresses tried, and the value and the buffer after it unless the
read came to an address that is not mapped. -/
structure Reading (α : Type) where
  span : Span
  result : Option (α × Buffer)

/-- The loop of `read_varint`: how many bytes it reads and the value, when it gets to its end. -/
def varintLoop : List (Option UInt8) → ℕ → UInt64 → ℕ × Option UInt64
  | some x :: cells, shift, value =>
    -- the shift of a 64-bit value takes its count modulo 64
    let value := value ||| ((x.toUInt64 &&& 0x7F) <<< UInt64.ofNat shift)
    if x &&& 0x80 = 0 then (1, some value)
    else
      let rest := varintLoop cells (shift + 7) value
      (rest.1 + 1, rest.2)
  | _, _, _ => (1, none)

def readVarint (memory : Memory) (state : Buffer) : Reading UInt64 :=
  let loop := varintLoop (memory.cells state.dot) 0 0
  ⟨⟨state.dot, loop.1⟩, loop.2.map fun value => (value, increment state loop.1)⟩

/-- Reads bytes one by one up to the first that is not mapped. -/
def byteLoop : List (Option UInt8) → ℕ → ℕ × Option (List UInt8)
  | _, 0 => (0, some [])
  | some x :: cells, length + 1 =>
    let rest := byteLoop cells length
    (rest.1 + 1, rest.2.map (x :: ·))
  | _, _ + 1 => (1, none)

/-- `read_64bit` and `read_32bit`: one load of `width` bytes, the lowest first. -/
def readFixed (width : ℕ) (memory : Memory) (state : Buffer) : Reading ℕ :=
  ⟨⟨state.dot, width⟩, (byteLoop (memory.cells state.dot) width).2.map fun bytes =>
    (ofBytes bytes, increment state width)⟩

def read64bit := readFixed 8

def read32bit := readFixed 4

/-- The lines that `parse` prints, with the numbers in them. -/
inductive Line where
  | tag (tag : UInt64) (fieldNumber wireType : ℕ)
  | varint (value : UInt64)
  | fixed64 (value : ℕ)
  | errorReadingSubmessage
  | length (length : ℤ)
  | bytes (bytes : List UInt8)
  | begin
  | finish
  | groupStart
  | groupEnd
  | fixed32 (value : ℕ)
  deriving DecidableEq, Repr

/-- What the body of the loop goes on to: a read that faults ends the process, `EMSGSIZE` is
returned, the next pass runs, or it runs once the chunk is parsed. -/
inductive Control where
  | fault
  | emsgsize (state : Buffer)
  | next (state : Buffer)
  | chunk (chunk state : Buffer)
  deriving DecidableEq, Repr

/-- One pass of the body of the loop. -/
structure Pass where
  reads : List Span
  lines : List Line
  control : Control
  deriving DecidableEq, Repr

def Pass.print (line : Line) (pass : Pass) : Pass := { pass with lines := line :: pass.lines }

def Reading.andThen {α : Type} (reading : Reading α) (rest : α → Buffer → Pass) : Pass :=
  match reading.result with
  | none => ⟨[reading.span], [], .fault⟩
  | some (value, state) =>
    { rest value state with reads := reading.span :: (rest value state).reads }

def wireType (tag : UInt64) : ℕ := (tag &&& 0x07).toNat

/-- The variable is an `unsigned char`. -/
def fieldNumber (tag : UInt64) : ℕ := (tag >>> 3).toUInt8.toNat

/-- The loop that prints the bytes of a chunk. -/
def dump (memory : Memory) (chunk : Buffer) : Reading (List UInt8) :=
  let loop := byteLoop (memory.cells chunk.dot) chunk.remaining.toNat
  ⟨⟨chunk.dot, loop.1⟩, loop.2.map fun bytes => (bytes, chunk)⟩

/-- The case `LENGTH`, once the length is read. -/
def lengthCase (memory : Memory) (value : UInt64) (state : Buffer) : Pass :=
  let chunk : Buffer := ⟨state.dot, narrow value.toNat⟩
  if chunk.remaining > state.remaining then ⟨[], [.errorReadingSubmessage], .emsgsize state⟩
  else
    ((dump memory chunk).andThen fun bytes chunk =>
      ⟨[], [.bytes bytes, .begin], .chunk chunk (increment state chunk.remaining)⟩).print
        (.length chunk.remaining)

/-- The `switch`. A wire type of 6 or 7 has no case. -/
def switch (memory : Memory) (state : Buffer) (wireType : ℕ) : Pass :=
  match wireType with
  | 0 => (readVarint memory state).andThen fun value state => ⟨[], [.varint value], .next state⟩
  | 1 =>
    -- `remaining` is compared as a `size_t`, so that a negative one is large
    if 0 ≤ state.remaining ∧ state.remaining < 8 then ⟨[], [], .emsgsize state⟩
    else (read64bit memory state).andThen fun value state => ⟨[], [.fixed64 value], .next state⟩
  | 2 => (readVarint memory state).andThen (lengthCase memory)
  | 3 => ⟨[], [.groupStart], .next state⟩
  | 4 => ⟨[], [.groupEnd], .next state⟩
  | 5 => (read32bit memory state).andThen fun value state => ⟨[], [.fixed32 value], .next state⟩
  | _ => ⟨[], [], .next state⟩

/-- The body of the loop of `parse`. -/
def pass (memory : Memory) (state : Buffer) : Pass :=
  (readVarint memory state).andThen fun tag state =>
    (switch memory state (wireType tag)).print (.tag tag (fieldNumber tag) (wireType tag))

/-- What `parse` returns. -/
inductive Code where
  | zero
  | emsgsize
  deriving DecidableEq, Repr

/-- How far a run came: to a `return`, to a read that faults, or it is still going on. -/
inductive Outcome where
  | returned (code : Code) (state : Buffer)
  | killed
  | running
  deriving DecidableEq, Repr

/-- A read, with the chunks it is made in, innermost first. -/
structure Read where
  span : Span
  chunks : List Span
  deriving DecidableEq, Repr

/-- What a run reads and prints, each line with its nesting depth, and how far it came. -/
structure Trace where
  reads : List Read
  lines : List (ℕ × Line)
  outcome : Outcome
  deriving DecidableEq, Repr

/-- A run that begins with a pass. -/
def Trace.after (pass : Pass) (trace : Trace) : Trace where
  reads := pass.reads.map (⟨·, []⟩) ++ trace.reads
  lines := pass.lines.map (0, ·) ++ trace.lines
  outcome := trace.outcome

def Buffer.span (chunk : Buffer) : Span := ⟨chunk.dot, chunk.remaining.toNat⟩

/-- The run of the call for a chunk, as a part of the run of its caller. -/
def Trace.inside (chunk : Buffer) (trace : Trace) : Trace where
  reads := trace.reads.map fun read => { read with chunks := read.chunks ++ [chunk.span] }
  lines := trace.lines.map fun line => (line.1 + 1, line.2)
  outcome := trace.outcome

/-- The caller goes on, whatever the call for the chunk has returned. -/
def Trace.andThen (call rest : Trace) : Trace :=
  match call.outcome with
  | .returned _ _ =>
    ⟨call.reads ++ rest.reads, call.lines ++ (0, .finish) :: rest.lines, rest.outcome⟩
  | _ => call

/-- `parse`, with fuel for the passes of the loop and of the calls in it. -/
def parse (memory : Memory) : ℕ → Buffer → Trace
  | 0, _ => ⟨[], [], .running⟩
  | fuel + 1, state =>
    if notEmpty state then
      let pass := pass memory state
      .after pass <|
        match pass.control with
        | .fault => ⟨[], [], .killed⟩
        | .emsgsize state => ⟨[], [], .returned .emsgsize state⟩
        | .next state => parse memory fuel state
        | .chunk chunk state =>
          ((parse memory fuel chunk).inside chunk).andThen (parse memory fuel state)
    else ⟨[], [], .returned .zero state⟩

/-- A file that `load_file` has mapped, with what the address space holds around it. -/
structure Image where
  before : Memory
  bytes : List UInt8
  after : Memory

def Image.memory (image : Image) : Memory := image.before ++ image.bytes.map some ++ image.after

/-- The buffer as `load_file` leaves it; the file's size is stored in an `int`. -/
def Image.buffer (image : Image) : Buffer := ⟨image.before.length, narrow image.bytes.length⟩

theorem Image.cells (image : Image) :
    image.memory.cells image.before.length = image.bytes.map some ++ image.after := by
  rw [Memory.cells, if_neg (by omega), memory, Int.toNat_natCast, List.append_assoc,
    List.drop_left]

/-- The addresses of the file's bytes. -/
def Image.span (image : Image) : Span := ⟨image.before.length, image.bytes.length⟩

end Redx.Protobuf
