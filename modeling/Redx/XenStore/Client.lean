import Redx.Library.Service
import Redx.XenStore.Readdir
import Mathlib.Data.List.TakeDrop
import Mathlib.Data.List.TakeWhile

/-!
# Calls and the store behind the bus

`Store::read`, `Store::mkdir` and `Store::remove` send a key in the way of `Store::readdir`, and
read the reply into an array of 1024 bytes. A list of calls of all five kinds goes to a store that
speaks the protocol of the bus, and each call is to return what the store has answered.
-/
namespace Redx.XenStore
open Library Strings

def XS_READ : ℕ := 2

def XS_MKDIR : ℕ := 12

def XS_RM : ℕ := 13

/-- `sizeof(buffer)` in `read`, `mkdir` and `remove` -/
def sizeofReply : ℕ := 1024

/-- Their array, with what it happens to hold before. -/
structure ReplyBuffer where
  cells : List UInt8
  size : cells.length = sizeofReply

/-- How one of the three calls ends: the process exits, the call fails with `error_string` left
alone or set, it has stored behind its array, or it comes to its end with a string in the array. -/
inductive Reply where
  | exited (log : String)
  | unopened
  | failed (errorString : ErrorString)
  | overrun
  | returned (string : List UInt8)
  deriving DecidableEq, Repr

/-- From the reading of the reply on. -/
def receive (buffer : ReplyBuffer) (message : Header) (payload : List UInt8) : Reply :=
  let bytes := payload.take message.len
  if sizeofReply < bytes.length then .overrun
  else
    let cells := bytes ++ buffer.cells.drop bytes.length
    if message.type = XS_ERROR then .failed (.reply (strlcpy cells sizeofErrorString).stored)
    else if sizeofReply ≤ message.len then .overrun
    else .returned ((cells.set message.len 0).takeWhile (· ≠ 0))

/-- What the three calls have in common, once the bus is open. -/
def converse (buffer : ReplyBuffer) (bus : DirectoryBus) : Reply :=
  if bus.writes = false then .failed (.text "xenbus write")
  else if bus.writesKey = false then .failed (.text "xenbus write")
  else
    match bus.header with
    | none => .failed (.text "xenbus read header")
    | some message =>
      match bus.payload with
      | none => .failed (.text "xenbus read data")
      | some payload => receive buffer message payload

/-- `Store::read` -/
def read (buffer : ReplyBuffer) (bus : DirectoryBus) : Reply :=
  if bus.opens = false then .exited "failed to open xenbus" else converse buffer bus

/-- `Store::mkdir` -/
def mkdir (buffer : ReplyBuffer) (bus : DirectoryBus) : Reply :=
  if bus.opens = false then .unopened else converse buffer bus

/-- `Store::remove` -/
def remove (buffer : ReplyBuffer) (bus : DirectoryBus) : Reply :=
  if bus.opens = false then .unopened else converse buffer bus

/-- A message on the bus: its header, and as many bytes as this says. -/
structure Packet where
  hdr : Header
  body : List UInt8
  deriving DecidableEq, Repr

/-- The two writes of a call that sends a key. -/
def keyPacket (type address : ℕ) (key : CString) : Packet where
  hdr := ⟨type, address % 2 ^ 32, 0, (strlen key + 1) % 2 ^ 32⟩
  body := key.bytes.take ((strlen key + 1) % 2 ^ 32)

/-- What the bus takes of the message of `Store::write`. -/
def writePacket (address : ℕ) (key value : CString) : Packet where
  hdr := (request address key value).hdr
  body := (request address key value).data.take (request address key value).hdr.len

inductive Command where
  | read (key : CString)
  | write (key value : CString)
  | mkdir (path : CString)
  | remove (path : CString)
  | readdir (key : CString)

/-- A call: the address of its key, and its arrays. -/
structure Invocation where
  command : Command
  address : ℕ
  buffer : ReplyBuffer
  listing : Buffer

/-- What a caller gets; `lost` when there is no caller any more, or a store was outside an array. -/
inductive Result where
  | value (string : List UInt8)
  | done
  | names (paths : List (List UInt8))
  | failed (errorString : ErrorString)
  | null
  | unopened
  | lost
  deriving DecidableEq, Repr

def Reply.result (returned : List UInt8 → Result) : Reply → Result
  | .exited _ => .lost
  | .unopened => .unopened
  | .failed errorString => .failed errorString
  | .overrun => .lost
  | .returned string => returned string

instance (s : Stored) : Decidable s.Within := inferInstanceAs (Decidable (_ ∨ _))

def Call.result (call : Call) : Result :=
  if ∀ s ∈ call.stores, s.Within then
    match call.outcome with
    | .exited _ => .lost
    | .failed errorString => .failed errorString
    | .succeeded => .done
  else .lost

/-- The reply fits the array of `readdir`, with the NUL that is put behind it. -/
def ListingFits (bus : DirectoryBus) : Prop :=
  ∀ message ∈ bus.header, message.len < sizeofBuffer

instance (bus : DirectoryBus) : Decidable (ListingFits bus) := by
  unfold ListingFits
  infer_instance

def Listing.result : Listing → Result
  | .exited _ => .lost
  | .null => .null
  | .overrun => .lost
  | .chain path => .names path.paths

namespace Invocation

/-- What goes over the bus to the store. -/
def packet (i : Invocation) : Packet :=
  match i.command with
  | .read key => keyPacket XS_READ i.address key
  | .write key value => writePacket i.address key value
  | .mkdir path => keyPacket XS_MKDIR i.address path
  | .remove path => keyPacket XS_RM i.address path
  | .readdir key => keyPacket XS_DIRECTORY i.address key

def result (i : Invocation) (bus : DirectoryBus) : Result :=
  match i.command with
  | .read _ => (XenStore.read i.buffer bus).result .value
  | .write key value => (XenStore.write i.address key value bus.toBus).result
  | .mkdir _ => (XenStore.mkdir i.buffer bus).result fun _ => .done
  | .remove _ => (XenStore.remove i.buffer bus).result fun _ => .done
  | .readdir _ =>
    if ListingFits bus then (XenStore.readdir i.listing bus).result else .lost

/-- The call, on a bus that works, with a store behind it. -/
def perform {σ : Type*} (serve : σ → Packet → σ × Packet) (s : σ) (i : Invocation) : σ × Result :=
  let (s', p) := serve s i.packet
  (s', i.result ⟨⟨true, true, some p.hdr, some p.body⟩, true⟩)

end Invocation

/-! ### What the calls are for -/

/-- What a store answers. -/
inductive Response where
  | value (bytes : List UInt8)
  | ok
  | names (names : List CString)
  | error (text : CString)

namespace Command

/-- The type of the message, in the protocol of the bus. -/
def type : Command → ℕ
  | .read _ => XS_READ
  | .write _ _ => XS_WRITE
  | .mkdir _ => XS_MKDIR
  | .remove _ => XS_RM
  | .readdir _ => XS_DIRECTORY

/-- The payload: a key with its NUL, and behind it the value that is written. -/
def body : Command → List UInt8
  | .write key value => key.bytes ++ value.chars
  | .read key | .mkdir key | .remove key | .readdir key => key.bytes

/-- The length of the payload is not cut, and the payload fits the message of `write`. -/
def Sendable : Command → Prop
  | .write key value => Fits key value
  | .read key | .mkdir key | .remove key | .readdir key => strlen key + 1 < 2 ^ 32

end Command

namespace Response

def body : Response → List UInt8
  | .value bytes => bytes
  | .ok => [79, 75, 0]
  | .names ns => directoryBytes ns
  | .error text => text.bytes

def IsError : Response → Prop
  | .error _ => True
  | _ => False

/-- The packet carries the response. -/
structure Carries (r : Response) (p : Packet) : Prop where
  type : p.hdr.type = XS_ERROR ↔ r.IsError
  len : p.hdr.len = r.body.length
  body : p.body = r.body

/-- The response is one to such a command. -/
def Suits : Response → Command → Prop
  | .value _, .read _ => True
  | .ok, .write _ _ | .ok, .mkdir _ | .ok, .remove _ => True
  | .names _, .readdir _ => True
  | .error _, _ => True
  | _, _ => False

/-- What the caller is to get; of an error while listing it learns nothing. -/
def result : Response → Command → Result
  | .value bytes, _ => .value bytes
  | .ok, _ => .done
  | .names ns, _ => .names (ns.map (·.chars))
  | .error _, .readdir _ => .null
  | .error text, _ => .failed (.reply text.bytes)

/-- The response comes through whole: a value is a string of less than 1024 bytes, a directory has
names and these take less than 4096 bytes, the text of an error fits `error_string`. -/
def Receivable : Response → Command → Prop
  | .value bytes, _ => bytes.length < 1024 ∧ 0 ∉ bytes
  | .ok, _ => True
  | .names ns, _ => (directoryBytes ns).length < 4096 ∧ ns ≠ []
  | .error text, .readdir _ => strlen text + 1 < 4096
  | .error text, _ => strlen text < 256

end Response

section Speaks

variable {σ : Type*}

/-- The store behind the bus takes the messages of the protocol for the commands that they stand
for, and answers in the protocol. -/
structure Speaks (serve : σ → Packet → σ × Packet) (store : σ → Command → σ × Response) : Prop where
  suits : ∀ s c, (store s c).2.Suits c
  serves : ∀ s c p, p.hdr.type = c.type → p.hdr.len = c.body.length → p.body = c.body →
    (serve s p).1 = (store s c).1 ∧ (store s c).2.Carries (serve s p).2

/-- The calls as they are meant: each one is a command to the store. -/
def intended (store : σ → Command → σ × Response) (s : σ) (i : Invocation) : σ × Result :=
  ((store s i.command).1, (store s i.command).2.result i.command)

end Speaks

section Packets

theorem keyPacket_eq {type address : ℕ} {key : CString} (h : strlen key + 1 < 2 ^ 32) :
    (keyPacket type address key).hdr.type = type ∧
      (keyPacket type address key).hdr.len = key.bytes.length ∧
      (keyPacket type address key).body = key.bytes := by
  have hlen : (strlen key + 1) % 2 ^ 32 = key.bytes.length := by
    rw [Nat.mod_eq_of_lt h, CString.bytes, List.length_append]
    rfl
  refine ⟨rfl, hlen, ?_⟩
  rw [keyPacket, hlen, List.take_length]

theorem writePacket_eq {address : ℕ} {key value : CString} (h : Fits key value) :
    (writePacket address key value).hdr.type = XS_WRITE ∧
      (writePacket address key value).hdr.len = (key.bytes ++ value.chars).length ∧
      (writePacket address key value).body = key.bytes ++ value.chars := by
  obtain ⟨hlen, hdata⟩ := (request_right_iff address key value).mpr h
  refine ⟨rfl, ?_, ?_⟩
  · rw [writePacket, hlen, CString.bytes, List.length_append, List.length_append]
    rfl
  · rw [writePacket, hlen, hdata, CString.bytes]

/-- A call sends the message of the protocol for its command. -/
theorem packet_eq (i : Invocation) (h : i.command.Sendable) :
    i.packet.hdr.type = i.command.type ∧ i.packet.hdr.len = i.command.body.length ∧
      i.packet.body = i.command.body := by
  obtain ⟨command, address, buffer, listing⟩ := i
  cases command with
  | write key value => exact writePacket_eq h
  | _ => exact keyPacket_eq h

end Packets

section Replies

variable {buffer : ReplyBuffer} {message : Header} {bytes : List UInt8} {text : CString}
  {address : ℕ} {key value : CString}

/-- The string in an array that has a NUL behind some bytes. -/
theorem takeWhile_nul (bytes rest : List UInt8) :
    (bytes ++ 0 :: rest).takeWhile (· ≠ 0) = bytes.takeWhile (· ≠ 0) := by
  induction bytes with
  | nil => exact List.takeWhile_cons_of_neg (by decide)
  | cons c bytes ih => rw [List.cons_append, List.takeWhile_cons, List.takeWhile_cons, ih]

theorem takeWhile_nul_eq_self : bytes.takeWhile (· ≠ 0) = bytes ↔ 0 ∉ bytes := by
  rw [List.takeWhile_eq_self_iff]
  constructor
  · intro h hmem
    exact absurd (h 0 hmem) (by decide)
  · intro h c hc
    exact decide_eq_true fun hzero => h (hzero ▸ hc)

theorem receive_bytes (htype : message.type ≠ XS_ERROR) (hlen : message.len = bytes.length) :
    receive buffer message bytes =
      if bytes.length < 1024 then .returned (bytes.takeWhile (· ≠ 0)) else .overrun := by
  rw [receive, hlen, List.take_length, if_neg htype, sizeofReply]
  by_cases hfits : bytes.length < 1024
  · have hset : (bytes ++ buffer.cells.drop bytes.length).set bytes.length 0 =
        bytes ++ 0 :: buffer.cells.drop (bytes.length + 1) := by
      have hcell : bytes.length < buffer.cells.length := Nat.lt_of_lt_of_eq hfits buffer.size.symm
      rw [List.drop_eq_getElem_cons hcell, List.set_append_right _ _ (Nat.le_refl _),
        Nat.sub_self, List.set_cons_zero]
    rw [if_neg (by omega), if_neg (by omega), if_pos hfits, hset, takeWhile_nul]
  · rw [if_neg hfits, if_pos (Nat.not_lt.mp hfits)]
    exact ite_self _

theorem receive_error (htype : message.type = XS_ERROR) (hlen : message.len = text.bytes.length) :
    receive buffer message text.bytes =
      if strlen text < 1024 then .failed (.reply (text.chars.take 255 ++ [0])) else .overrun := by
  have hsize : text.bytes.length = strlen text + 1 := List.length_append
  rw [receive, hlen, List.take_length, if_pos htype, hsize]
  by_cases hfits : strlen text < 1024
  · rw [if_neg (by rw [sizeofReply]; omega), if_pos hfits, CString.bytes, List.append_assoc,
      List.singleton_append, strlcpy_eq]
    rfl
  · rw [if_pos (by rw [sizeofReply]; omega), if_neg hfits]

/-- A bus that works, with a reply on it. -/
def working (message : Header) (payload : List UInt8) : DirectoryBus :=
  ⟨⟨true, true, some message, some payload⟩, true⟩

theorem write_working (address : ℕ) (key value : CString) (message : Header)
    (payload : List UInt8) :
    write address key value (working message payload).toBus =
      readReply (copies key value).1 (request address key value) (working message payload).toBus :=
  rfl

/-- What `write` stores lies in the data area just when the reply does. -/
theorem write_within_iff (address : ℕ) (h : Fits key value) (message : Header)
    (payload : List UInt8) :
    (∀ s ∈ (write address key value (working message payload).toBus).stores, s.Within) ↔
      (payload.take message.len).length ≤ 2048 ∧
        (message.type = XS_ERROR ∨ message.len < 2048) := by
  have hcopies : ∀ s ∈ (copies key value).1, s.Within := by
    rw [copies_within_iff]
    unfold Fits at h
    omega
  rw [write_working, readReply_within_iff, and_iff_right hcopies]
  constructor
  · intro hfits
    exact hfits message payload rfl rfl
  · rintro hfits _ _ ⟨⟩ ⟨⟩
    exact hfits

theorem write_ok (address : ℕ) (h : Fits key value) (htype : message.type ≠ XS_ERROR)
    (hlen : message.len = 3) :
    (write address key value (working message [79, 75, 0]).toBus).result = .done := by
  have hwithin := (write_within_iff address h message [79, 75, 0]).mpr
    ⟨List.length_take_le' .. |>.trans (by decide), .inr (by omega)⟩
  have houtcome : (write address key value (working message [79, 75, 0]).toBus).outcome =
      .succeeded := by
    rw [write_working, readReply]
    simp [working, htype]
  rw [Call.result, if_pos hwithin, houtcome]

theorem write_error (address : ℕ) (h : Fits key value) (htype : message.type = XS_ERROR)
    (hlen : message.len = text.bytes.length) :
    (write address key value (working message text.bytes).toBus).result =
      if strlen text < 2048 then .failed (.reply (text.chars.take 255 ++ [0])) else .lost := by
  have hsize : text.bytes.length = strlen text + 1 := List.length_append
  have hwithin := write_within_iff address h message text.bytes
  rw [hlen, List.take_length, hsize, or_iff_left_of_imp fun _ => htype,
    and_iff_left htype] at hwithin
  by_cases hfits : strlen text < 2048
  · have hinto : (Stored.mk 0 text.bytes).into (request address key value).data =
        text.chars ++ 0 :: (request address key value).data.drop text.bytes.length := by
      have hdata := request_data_length address key value
      have htake : ((request address key value).data.take text.bytes.length).length =
          text.bytes.length := by
        rw [List.length_take, hdata, sizeofData, hsize]
        omega
      have happend := Stored.into_append [] _
        ((request address key value).data.drop text.bytes.length) text.bytes htake
      rw [List.nil_append, List.take_append_drop, List.nil_append] at happend
      exact happend.trans (List.append_assoc _ _ _)
    have houtcome : (write address key value (working message text.bytes).toBus).outcome =
        .failed (.reply (text.chars.take 255 ++ [0])) := by
      rw [write_working, readReply]
      simp only [working, if_pos htype, hlen, List.take_length, hinto, strlcpy_eq]
      rfl
    rw [Call.result, if_pos (hwithin.mpr hfits), houtcome, if_pos hfits]
  · rw [Call.result, if_neg fun hall => hfits (hwithin.mp hall), if_neg hfits]

/-- The text of an error is cut unless it fits `error_string`. -/
theorem cut_eq_iff (text : CString) :
    Result.failed (.reply (text.chars.take 255 ++ [0])) = .failed (.reply text.bytes) ↔
      strlen text < 256 := by
  rw [Result.failed.injEq, ErrorString.reply.injEq, CString.bytes, List.append_left_inj,
    List.take_eq_self_iff]
  exact Nat.lt_succ_iff.symm

theorem converse_working (buffer : ReplyBuffer) (message : Header) (payload : List UInt8) :
    converse buffer (working message payload) = receive buffer message payload :=
  rfl

theorem converse_error (htype : message.type = XS_ERROR) (hlen : message.len = text.bytes.length)
    (returned : List UInt8 → Result) :
    (converse buffer (working message text.bytes)).result returned =
      .failed (.reply text.bytes) ↔ strlen text < 256 := by
  rw [converse_working, receive_error htype hlen]
  split
  · exact cut_eq_iff text
  · rename_i hlong
    refine iff_of_false nofun fun h => hlong (h.trans (by decide))

theorem converse_ok (htype : message.type ≠ XS_ERROR) (hlen : message.len = 3) :
    (converse buffer (working message [79, 75, 0])).result (fun _ => .done) = .done := by
  have hok : message.len = ([79, 75, 0] : List UInt8).length := hlen
  rw [converse_working, receive_bytes htype hok, if_pos (by decide)]
  rfl

theorem converse_value (htype : message.type ≠ XS_ERROR) (hlen : message.len = bytes.length) :
    (converse buffer (working message bytes)).result .value = .value bytes ↔
      bytes.length < 1024 ∧ 0 ∉ bytes := by
  rw [converse_working, receive_bytes htype hlen]
  split
  · rename_i hfits
    rw [Reply.result, Result.value.injEq, takeWhile_nul_eq_self, and_iff_right hfits]
  · rename_i hlong
    exact iff_of_false nofun fun h => hlong h.1

theorem listingFits_working (message : Header) (payload : List UInt8) :
    ListingFits (working message payload) ↔ message.len < 4096 := by
  simp [ListingFits, working, sizeofBuffer]

theorem Listing.result_eq_names {l : Listing} (hnull : l ≠ .null) (paths : List (List UInt8)) :
    l.result = .names paths ↔ l.paths = some paths := by
  cases l with
  | null => exact absurd rfl hnull
  | chain path => simp [Listing.result, Listing.paths]
  | _ => simp [Listing.result, Listing.paths]

theorem readdir_names (listing : Buffer) {ns : List CString} (htype : message.type ≠ XS_ERROR)
    (hlen : message.len = (directoryBytes ns).length) (hfits : (directoryBytes ns).length < 4096) :
    (readdir listing (working message (directoryBytes ns))).result = .names (ns.map (·.chars)) ↔
      ns ≠ [] := by
  have hanswers : Answers (working message (directoryBytes ns)) ns :=
    ⟨rfl, rfl, rfl, ⟨message, rfl, htype, hlen⟩, rfl⟩
  have hsize := Nat.le_of_lt_succ hfits
  rw [Listing.result_eq_names, readdir_paths_iff listing _ ns hanswers hsize]
  rw [readdir_eq listing hanswers hsize]
  cases construct _ _ <;> nofun

theorem readdir_error (listing : Buffer) (htype : message.type = XS_ERROR)
    (payload : List UInt8) : (readdir listing (working message payload)).result = .null := by
  simp [readdir, working, htype, Listing.result]

end Replies

/-- Of a response that comes over the bus, the caller gets what it is to get just when the
response comes through whole. -/
theorem result_eq_iff (i : Invocation) {r : Response} {p : Packet}
    (hsend : i.command.Sendable) (hsuits : r.Suits i.command) (hp : r.Carries p) :
    i.result (working p.hdr p.body) = r.result i.command ↔ r.Receivable i.command := by
  obtain ⟨command, address, buffer, listing⟩ := i
  obtain ⟨htype, hlen, hbody⟩ := hp
  rw [hbody]
  cases r with
  | value bytes =>
    have htype : p.hdr.type ≠ XS_ERROR := htype.not.mpr id
    cases command with
    | read key => exact converse_value htype hlen
    | _ => exact hsuits.elim
  | ok =>
    have htype : p.hdr.type ≠ XS_ERROR := htype.not.mpr id
    cases command with
    | write key value => exact iff_of_true (write_ok address hsend htype hlen) trivial
    | mkdir path => exact iff_of_true (converse_ok htype hlen) trivial
    | remove path => exact iff_of_true (converse_ok htype hlen) trivial
    | _ => exact hsuits.elim
  | names ns =>
    have htype : p.hdr.type ≠ XS_ERROR := htype.not.mpr id
    cases command with
    | readdir key =>
      unfold Invocation.result
      simp only [listingFits_working, hlen]
      split
      · rename_i hfits
        exact (readdir_names listing htype hlen hfits).trans (and_iff_right hfits).symm
      · rename_i hlong
        exact iff_of_false nofun fun h => hlong h.1
    | _ => exact hsuits.elim
  | error text =>
    have htype : p.hdr.type = XS_ERROR := htype.mpr trivial
    cases command with
    | read key => exact converse_error htype hlen _
    | mkdir path => exact converse_error htype hlen _
    | remove path => exact converse_error htype hlen _
    | write key value =>
      have hresult := write_error address hsend htype hlen
      unfold Invocation.result
      refine (congrArg (· = _) hresult).to_iff.trans ?_
      split
      · exact cut_eq_iff text
      · rename_i hlong
        exact iff_of_false nofun fun h => hlong (h.trans (by decide))
    | readdir key =>
      unfold Invocation.result
      have hsize : (Response.error text).body.length = strlen text + 1 := List.length_append
      simp only [listingFits_working, hlen, hsize]
      split
      · rename_i hfits
        exact iff_of_true (readdir_error listing htype _) hfits
      · rename_i hlong
        exact iff_of_false nofun hlong

section Speaks

variable {σ : Type*} {serve : σ → Packet → σ × Packet} {store : σ → Command → σ × Response}

theorem perform_state (h : Speaks serve store) (s : σ) (i : Invocation)
    (hi : i.command.Sendable) : (i.perform serve s).1 = (intended store s i).1 := by
  obtain ⟨htype, hlen, hbody⟩ := packet_eq i hi
  exact (h.serves s i.command i.packet htype hlen hbody).1

theorem perform_result (h : Speaks serve store) (s : σ) (i : Invocation)
    (hi : i.command.Sendable) : (i.perform serve s).2 = (intended store s i).2 ↔
      (store s i.command).2.Receivable i.command := by
  obtain ⟨htype, hlen, hbody⟩ := packet_eq i hi
  exact result_eq_iff i hi (h.suits s i.command)
    (h.serves s i.command i.packet htype hlen hbody).2

/-- A list of calls does to the store what its commands say, and every caller gets the answer of
the store, if and only if every answer comes through whole. -/
theorem calls_answered_iff (h : Speaks serve store) (s : σ) (calls : List Invocation)
    (hsend : ∀ i ∈ calls, i.command.Sendable) :
    serveAll (Invocation.perform serve) s calls = serveAll (intended store) s calls ↔
      Along (intended store) (fun s i => (store s i.command).2.Receivable i.command) s calls :=
  serveAll_eq_iff (fun s i hi => perform_state h s i hi) (fun s i hi => perform_result h s i hi)
    hsend

end Speaks

section Server

variable {σ : Type*}

/-- The string that some bytes begin with. -/
def stringOf (bytes : List UInt8) : CString where
  chars := bytes.takeWhile (· ≠ 0)
  noNul h := absurd (List.mem_takeWhile_imp h) (by decide)

theorem stringOf_chars {chars : List UInt8} (h : 0 ∉ chars) (rest : List UInt8) :
    (stringOf (chars ++ 0 :: rest)).chars = chars :=
  takeWhile_chars h rest

/-- The command that a message stands for. -/
def Packet.command (p : Packet) : Option Command :=
  let key := stringOf p.body
  if p.hdr.type = XS_READ then some (.read key)
  else if p.hdr.type = XS_WRITE then
    some (.write key (stringOf (p.body.drop (strlen key + 1) ++ [0])))
  else if p.hdr.type = XS_MKDIR then some (.mkdir key)
  else if p.hdr.type = XS_RM then some (.remove key)
  else if p.hdr.type = XS_DIRECTORY then some (.readdir key)
  else none

def Response.packet (p : Packet) (r : Response) : Packet where
  hdr :=
    match r with
    | .error _ => { p.hdr with type := XS_ERROR, len := r.body.length }
    | _ => { p.hdr with len := r.body.length }
  body := r.body

/-- `EINVAL` -/
def invalid : CString := ⟨[69, 73, 78, 86, 65, 76], by decide⟩

/-- `ENOENT` -/
def absent : CString := ⟨[69, 78, 79, 69, 78, 84], by decide⟩

/-- A process that has a store behind the bus. -/
def server (store : σ → Command → σ × Response) (s : σ) (p : Packet) : σ × Packet :=
  match p.command with
  | none => (s, (Response.error invalid).packet p)
  | some c => ((store s c).1, (store s c).2.packet p)

theorem CString.eq_of_chars {a b : CString} (h : a.chars = b.chars) : a = b := by
  obtain ⟨chars, _⟩ := a
  obtain ⟨_, _⟩ := b
  obtain rfl : chars = _ := h
  rfl

theorem stringOf_bytes (key : CString) (rest : List UInt8) :
    stringOf (key.bytes ++ rest) = key := by
  refine CString.eq_of_chars ?_
  rw [CString.bytes, List.append_assoc, List.singleton_append, stringOf_chars key.noNul]

theorem command_of_body {p : Packet} {c : Command} (htype : p.hdr.type = c.type)
    (hbody : p.body = c.body) : p.command = some c := by
  have hkey (key : CString) : stringOf key.bytes = key := by
    rw [← List.append_nil key.bytes, stringOf_bytes]
  unfold Packet.command
  rw [htype, hbody]
  cases c with
  | write key value =>
    have hdrop : (key.bytes ++ value.chars).drop (strlen key + 1) = value.chars :=
      List.drop_left' List.length_append
    simp only [Command.body, Command.type, stringOf_bytes, hdrop]
    rw [← CString.bytes, hkey]
    rfl
  | _ =>
    simp only [Command.body, Command.type, hkey]
    rfl

theorem type_ne_error (c : Command) : c.type ≠ XS_ERROR := by
  cases c <;> simp [Command.type, XS_READ, XS_WRITE, XS_MKDIR, XS_RM, XS_DIRECTORY, XS_ERROR]

theorem carries_packet {p : Packet} {r : Response} (htype : p.hdr.type ≠ XS_ERROR) :
    r.Carries (r.packet p) where
  type := by
    cases r with
    | error text => exact iff_of_true rfl trivial
    | _ => exact iff_of_false htype id
  len := by cases r <;> rfl
  body := rfl

/-- There is such a process for every store. -/
theorem speaks_server {store : σ → Command → σ × Response}
    (h : ∀ s c, (store s c).2.Suits c) : Speaks (server store) store := by
  refine ⟨h, fun s c p htype _ hbody => ?_⟩
  rw [server, command_of_body htype hbody]
  exact ⟨rfl, carries_packet (htype.trans_ne (type_ne_error c))⟩

/-- A store of keys without directories. -/
def flatStore (s : List UInt8 → Option (List UInt8)) :
    Command → (List UInt8 → Option (List UInt8)) × Response
  | .read key => (s, (s key.chars).elim (.error absent) .value)
  | .write key value => (Function.update s key.chars (some value.chars), .ok)
  | .mkdir path => (Function.update s path.chars (some ((s path.chars).getD [])), .ok)
  | .remove path => (Function.update s path.chars none, .ok)
  | .readdir _ => (s, .error absent)

theorem speaks_flatStore : Speaks (server flatStore) flatStore := by
  refine speaks_server fun s c => ?_
  cases c with
  | read key =>
    change ((s key.chars).elim (Response.error absent) Response.value).Suits (.read key)
    cases s key.chars <;> trivial
  | _ => trivial

end Server

def blankReply : ReplyBuffer := ⟨List.replicate sizeofReply 0, List.length_replicate⟩

/-- `domid` is written, and read. -/
def writeRead : List Invocation := [
  ⟨.write domid ⟨[49], by decide⟩, 0, blankReply, blankBuffer⟩,
  ⟨.read domid, 0, blankReply, blankBuffer⟩]

theorem calls_answered_writeRead :
    (serveAll (Invocation.perform (server flatStore)) (fun _ => none) writeRead).2 =
      [.done, .value [49]] := by
  have hsend : ∀ i ∈ writeRead, i.command.Sendable := by
    unfold writeRead
    simp only [List.forall_mem_cons]
    exact ⟨.inl (by decide), show 5 + 1 < 2 ^ 32 by decide, nofun⟩
  have hcalls := (calls_answered_iff speaks_flatStore (fun _ => none) writeRead hsend).mpr
    ⟨trivial, ⟨by decide, by decide⟩, trivial⟩
  exact (congrArg Prod.snd hcalls).trans rfl

end Redx.XenStore
