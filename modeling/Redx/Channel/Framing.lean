import Redx.Channel.Message
import Redx.Library.Machine
import Redx.Strings.Copy

/-!
# The size of a message

Both `send` functions declare the size of a message from the length that `strlcpy` returns, which
is the length of the whole string and not of what the body holds.
-/
namespace Redx.Channel
open Library Strings

def sizeofChar : ℕ := 1

def sizeofLong : ℕ := 8

/-- The payload of a `struct channel_message`: the fields after the type of the message. -/
def sizeofPayload : ℕ := sizeofLong + sizeofLong + sizeofBody

/-- A call of `msgsnd`: the message, the bytes stored in its body, the size declared for it and
whether "message body truncated" has been logged. -/
structure Sending where
  message : Message
  stored : List UInt8
  size : ℕ
  truncated : Bool

/-- The body of both `send` functions, once the other fields are set. -/
def sending (m : Message) (message : CString) : Sending :=
  let copy := Strings.strlcpy message.bytes sizeofBody
  let bytes := toInt copy.result
  -- the comparison converts the `int` to a `size_t`
  let truncated : Bool := toSize bytes > sizeofBody
  let bytes := if truncated then toInt (sizeofBody - 1) else bytes
  { message := m
    stored := copy.stored
    size := toSize (bytes + sizeofChar + sizeofLong + sizeofLong)
    truncated := truncated }

/-- `ChannelClient::send` -/
def clientSend (pid : ℕ) (message : CString) (serial : ℕ) : Sending :=
  sending (clientMessage pid message.chars serial) message

/-- `Channel::send` -/
def serviceSend (dst : ℕ) (result : ℤ) (message : CString) (serial : ℕ) : Sending :=
  sending (serviceMessage dst result message.chars serial) message

/-- The declared size is that of the two long fields and the stored body with its NUL, which is
the string or its first 1011 characters; a warning tells the second case. -/
def Framed (message : CString) (s : Sending) : Prop :=
  s.stored = s.message.body ++ [0] ∧
    s.size = sizeofLong + sizeofLong + s.stored.length ∧ s.size ≤ sizeofPayload ∧
    (s.message.body = message.chars ∧ s.truncated = false ∨
      s.message.body = message.chars.take 1011 ∧ s.message.body ≠ message.chars ∧
        s.truncated = true)

/-- The length fits the body with the NUL, or what an `int` keeps of it is more than the body. -/
def Declarable (message : CString) : Prop :=
  strlen message ≤ 1011 ∨ 1012 < strlen message % 2 ^ 32

variable {m : Message} {message : CString}

theorem sending_stored (m : Message) (message : CString) :
    (sending m message).stored = strlcpy message.chars sizeofBody ++ [0] := by
  simp only [sending, CString.bytes, strlcpy_eq]
  rfl

/-- The comparison finds the string too long just when what an `int` keeps of its length is, every
negative `int` being a large `size_t`. -/
theorem sending_truncated (m : Message) (message : CString) :
    (sending m message).truncated = decide (1012 < strlen message % 2 ^ 32) := by
  have hsize : 1012 < toSize (toInt (strlen message)) ↔ 1012 < strlen message % 2 ^ 32 := by
    by_cases h : strlen message % 2 ^ 32 < 2 ^ 31
    · rw [toInt_of_lt (by omega), toSize_eq_self (by omega) (by omega)]
      omega
    · have hneg := toInt_of_ge (x := strlen message) (by omega)
      have hbig := toSize_of_neg (x := toInt (strlen message)) (by omega) (by omega)
      omega
  simp only [sending, CString.bytes, strlcpy_eq, sizeofBody]
  exact decide_eq_decide.mpr hsize

theorem sending_size_of_truncated (h : (sending m message).truncated = true) :
    (sending m message).size = 1028 := by
  unfold sending at *
  simp only [] at h ⊢
  rw [if_pos h]
  rfl

theorem sending_size_of_not_truncated (h : (sending m message).truncated = false) :
    (sending m message).size = strlen message % 2 ^ 32 + 17 := by
  have hmod : ¬ 1012 < strlen message % 2 ^ 32 := by
    rw [sending_truncated] at h
    exact of_decide_eq_false h
  unfold sending at *
  simp only [CString.bytes, strlcpy_eq] at h ⊢
  rw [if_neg (by rw [h]; exact Bool.false_ne_true), toInt_of_lt (by omega), sizeofChar, sizeofLong,
    toSize_eq_self (by omega) (by omega)]
  omega

theorem body_eq_iff (message : CString) :
    strlcpy message.chars sizeofBody = message.chars ↔ strlen message ≤ 1011 := by
  constructor
  · intro h
    rw [strlen, ← h, strlcpy, List.length_take]
    exact Nat.min_le_left _ _
  · exact List.take_of_length_le

theorem stored_length (m : Message) (message : CString) :
    (sending m message).stored.length = min 1011 (strlen message) + 1 := by
  rw [sending_stored, List.length_append, strlcpy, List.length_take]
  rfl

/-- The size is right just when the length of the string is declarable. -/
theorem framed_sending_iff (hbody : m.body = strlcpy message.chars sizeofBody) :
    Framed message (sending m message) ↔ Declarable message := by
  have hmessage : (sending m message).message.body = strlcpy message.chars sizeofBody := hbody
  have hlength := stored_length m message
  have hpayload : sizeofPayload = 1028 := rfl
  have hlong : sizeofLong = 8 := rfl
  unfold Framed Declarable
  rw [hmessage, body_eq_iff, hlength, hpayload, hlong]
  cases htruncated : (sending m message).truncated with
  | true =>
    have hover : 1012 < strlen message % 2 ^ 32 := by
      rw [sending_truncated] at htruncated
      exact of_decide_eq_true htruncated
    have hle := Nat.mod_le (strlen message) (2 ^ 32)
    rw [sending_size_of_truncated htruncated]
    have hcut : strlcpy message.chars sizeofBody ≠ message.chars := fun h => by
      have hle := (body_eq_iff message).mp h
      omega
    exact ⟨fun _ => .inr hover, fun _ =>
      ⟨sending_stored m message, by omega, by omega, .inr ⟨rfl, hcut, rfl⟩⟩⟩
  | false =>
    have hfits : ¬ 1012 < strlen message % 2 ^ 32 := by
      rw [sending_truncated] at htruncated
      exact of_decide_eq_false htruncated
    rw [sending_size_of_not_truncated htruncated]
    constructor
    · rintro ⟨-, -, -, ⟨hle, -⟩ | ⟨-, -, htrue⟩⟩
      · exact .inl hle
      · exact absurd htrue Bool.false_ne_true
    · rintro (hle | hover)
      · have hmod : strlen message % 2 ^ 32 = strlen message := Nat.mod_eq_of_lt (by omega)
        exact ⟨sending_stored m message, by omega, by omega, .inl ⟨hle, rfl⟩⟩
      · exact absurd hover hfits

/-- Both `send` functions declare the right size just for the strings of these lengths. -/
theorem send_framed_iff (pid dst serial : ℕ) (result : ℤ) (message : CString) :
    (Framed message (clientSend pid message serial) ↔ Declarable message) ∧
      (Framed message (serviceSend dst result message serial) ↔ Declarable message) :=
  ⟨framed_sending_iff rfl, framed_sending_iff rfl⟩

/-- A string as long as the body. -/
def bodyful : CString where
  chars := List.replicate 1012 97
  noNul := fun h => absurd (List.eq_of_mem_replicate h) (by decide)

/-- The last character is dropped, no warning is logged and the size counts a byte too many. -/
theorem bodyful_not_framed : (clientSend 400 bodyful 0).truncated = false ∧
    (clientSend 400 bodyful 0).size = 1029 ∧
    (clientSend 400 bodyful 0).stored.length = 1012 ∧
    ¬ Framed bodyful (clientSend 400 bodyful 0) ∧
    ¬ Framed bodyful (serviceSend 400 0 bodyful 0) := by
  have hlen : strlen bodyful = 1012 := List.length_replicate
  have htruncated : ∀ m, (sending m bodyful).truncated = false := fun m => by
    rw [sending_truncated, hlen]
    rfl
  have hsize : ∀ m, (sending m bodyful).size = 1029 := fun m => by
    have h := sending_size_of_not_truncated (htruncated m)
    rw [hlen] at h
    exact h
  have hstored : ∀ m, (sending m bodyful).stored.length = 1012 := fun m => by
    rw [stored_length, hlen]
    rfl
  have hnot : ∀ m, ¬ Framed bodyful (sending m bodyful) := by
    rintro m ⟨-, h, -⟩
    rw [hsize, hstored] at h
    exact absurd h (by decide)
  exact ⟨htruncated _, hsize _, hstored _, hnot _, hnot _⟩

end Redx.Channel
