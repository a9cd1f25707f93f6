import Redx.Library.Bytes

/-!
# Datagrams of netlink messages

Every message starts with a sixteen byte header that holds its length and its type, and the next
one starts at a multiple of four bytes. `NLMSG_OK` and `NLMSG_NEXT` are the macros of the Linux
headers, on a remaining length that is an `unsigned int`.
-/
namespace Redx.NetLink
open Library

def sizeofHeader : ℕ := 16

def nlmsgError : ℕ := 2
def nlmsgDone : ℕ := 3

/-- `NLMSG_ALIGN`, in 32-bit arithmetic. -/
def align (length : ℕ) : ℕ := (length + 3) % 2 ^ 32 / 4 * 4

/-- `h->nlmsg_len` -/
def nlmsgLen (memory : ℕ → UInt8) (h : ℕ) : ℕ := valueAt memory h 4

/-- `h->nlmsg_type` -/
def nlmsgType (memory : ℕ → UInt8) (h : ℕ) : ℕ := valueAt memory (h + 4) 2

/-- `NLMSG_OK(h, length)` -/
def NlmsgOk (memory : ℕ → UInt8) (h length : ℕ) : Prop :=
  sizeofHeader ≤ length ∧ sizeofHeader ≤ nlmsgLen memory h ∧ nlmsgLen memory h ≤ length

instance (memory : ℕ → UInt8) (h length : ℕ) : Decidable (NlmsgOk memory h length) :=
  inferInstanceAs (Decidable (_ ∧ _ ∧ _))

/-- The length that `NLMSG_NEXT(h, length)` leaves. -/
def nextLength (memory : ℕ → UInt8) (h length : ℕ) : ℕ :=
  (length + (2 ^ 32 - align (nlmsgLen memory h))) % 2 ^ 32

/-- A message: the fields of its header other than the length, and what follows the header. -/
structure Message where
  type : ℕ
  flags : ℕ
  sequence : ℕ
  pid : ℕ
  payload : List UInt8

namespace Message

def length (m : Message) : ℕ := sizeofHeader + m.payload.length

/-- The message as it stands in a datagram. -/
def bytes (m : Message) : List UInt8 :=
  bytesOf 4 m.length ++ bytesOf 2 m.type ++ bytesOf 2 m.flags ++ bytesOf 4 m.sequence ++
    bytesOf 4 m.pid ++ m.payload

@[simp] theorem length_bytes (m : Message) : m.bytes.length = m.length := by
  simp [bytes, length, sizeofHeader]
  omega

/-- `NLMSG_DONE` and `NLMSG_ERROR` end a datagram. -/
def Terminates (m : Message) : Prop := m.type = nlmsgDone ∨ m.type = nlmsgError

instance (m : Message) : Decidable m.Terminates := inferInstanceAs (Decidable (_ ∨ _))

end Message

/-- A datagram: messages one after another, each but the last followed by as many bytes as bring
the next one to a multiple of four. The flag tells whether the last one is too. -/
inductive Datagram : Bool → List Message → List UInt8 → Prop
  | nil : Datagram true [] []
  | last {m : Message} : Datagram false [m] m.bytes
  | cons {padded : Bool} {m : Message} {ms : List Message} {padding bytes : List UInt8} :
      m.length + padding.length = align m.length → Datagram padded ms bytes →
      Datagram padded (m :: ms) (m.bytes ++ padding ++ bytes)

variable {memory : ℕ → UInt8} {h : ℕ} {m : Message}

/-- What the header of a message in memory says. -/
theorem header_of_holds (hm : Holds memory h m.bytes) (htype : m.type < 2 ^ 16)
    (hlength : m.length < 2 ^ 32) : nlmsgLen memory h = m.length ∧ nlmsgType memory h = m.type := by
  simp only [Message.bytes, holds_append, length_bytesOf] at hm
  obtain ⟨⟨⟨⟨⟨hlen, htyp⟩, -⟩, -⟩, -⟩, -⟩ := hm
  rw [nlmsgLen, nlmsgType, valueAt_of_holds hlen, valueAt_of_holds htyp]
  exact ⟨Nat.mod_eq_of_lt hlength, Nat.mod_eq_of_lt htype⟩

end Redx.NetLink
