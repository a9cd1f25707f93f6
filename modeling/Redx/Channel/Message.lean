import Mathlib.Data.List.Basic
import Mathlib.Data.Int.Notation

/-!
# Messages of a channel

A message queue holds messages for the service, of type 1, and for its clients, of the type that
is the client's process id. Bodies are C strings that `strlcpy` cuts to the receiving array.
-/
namespace Redx.Channel

/-- `strlcpy` into an array of `size` bytes: the string that the array then holds. -/
def strlcpy (src : List UInt8) (size : ℕ) : List UInt8 := src.take (size - 1)

/-- The type of the messages for the service. -/
def serviceType : ℕ := 1

/-- `sizeof(m.body)` -/
def sizeofBody : ℕ := 1012

/-- The buffers of the service and of its clients. -/
def sizeofBuffer : ℕ := 1024

/-- `struct channel_message`, together with the serial number of the request that the message
is or answers, which no code sees. -/
structure Message where
  dst : ℕ
  src : ℕ
  error : ℤ
  body : List UInt8
  serial : ℕ
  deriving DecidableEq, Repr

/-- What `ChannelClient::send` enqueues. -/
def clientMessage (pid : ℕ) (message : List UInt8) (serial : ℕ) : Message where
  dst := serviceType
  src := pid
  error := 0
  body := strlcpy message sizeofBody
  serial := serial

/-- What `Channel::send` enqueues. -/
def serviceMessage (dst : ℕ) (result : ℤ) (message : List UInt8) (serial : ℕ) : Message where
  dst := dst
  src := serviceType
  error := result
  body := strlcpy message sizeofBody
  serial := serial

/-- The first message of a type, and the queue without it. -/
def msgrcv (queue : List Message) (type : ℕ) : Option (Message × List Message) :=
  match queue.find? fun m => m.dst = type with
  | none => none
  | some m => some (m, queue.eraseP fun m => m.dst = type)

variable {queue rest : List Message} {type : ℕ} {m : Message}

theorem msgrcv_some (h : msgrcv queue type = some (m, rest)) :
    m ∈ queue ∧ m.dst = type ∧ ∀ x ∈ rest, x ∈ queue := by
  unfold msgrcv at h
  split at h
  · cases h
  · rename_i x hx
    obtain ⟨rfl, rfl⟩ := Prod.mk.inj (Option.some.inj h)
    exact ⟨List.mem_of_find?_eq_some hx, by simpa using List.find?_some hx,
      fun y hy => List.mem_of_mem_eraseP hy⟩

end Redx.Channel
