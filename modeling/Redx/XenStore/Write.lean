import Redx.Library.Machine
import Redx.Strings.Copy

/-!
# Writing a value

`Store::write` copies the key and the value into the data area of one message, sends it over the
bus and reads the reply into the same area.
-/
namespace Redx.XenStore
open Library Strings

/-- `sizeof(message.data)` -/
def sizeofData : ℕ := 2048

def sizeofErrorString : ℕ := 256

def XS_WRITE : ℕ := 11

def XS_ERROR : ℕ := 16

/-- `struct xsd_sockmsg` -/
structure Header where
  type : ℕ
  reqId : ℕ
  txId : ℕ
  len : ℕ
  deriving DecidableEq, Repr

structure Message where
  hdr : Header
  data : List UInt8
  deriving DecidableEq, Repr

/-- Bytes stored from `message.data + offset` on. -/
structure Stored where
  offset : ℤ
  bytes : List UInt8
  deriving DecidableEq, Repr

/-- All of the bytes lie in the data area. -/
def Stored.Within (s : Stored) : Prop :=
  s.bytes = [] ∨ 0 ≤ s.offset ∧ s.offset + s.bytes.length ≤ sizeofData

/-- What the data area holds afterwards. -/
def Stored.into (s : Stored) (data : List UInt8) : List UInt8 :=
  data.mapIdx fun i b => if s.offset ≤ i then s.bytes.getD (i - s.offset).toNat b else b

/-- What the system calls give: whether the bus opens and whether it takes the message, and the
header and the payload of the reply, `none` where `read` fails. -/
structure Bus where
  opens : Bool
  writes : Bool
  header : Option Header
  payload : Option (List UInt8)

/-- What is left in `error_string`. -/
inductive ErrorString where
  | text (s : String)
  | reply (bytes : List UInt8)
  deriving DecidableEq, Repr

inductive Outcome where
  | exited (log : String)
  | failed (errorString : ErrorString)
  | succeeded
  deriving DecidableEq, Repr

/-- What a call has stored relative to the data area, the message that the bus has taken, and how
the call ended. -/
structure Call where
  stores : List Stored
  sent : Option Message
  outcome : Outcome

/-- The two calls of `strlcpy`, with the length that goes into the header. -/
def copies (key value : CString) : List Stored × ℤ :=
  let copy := strlcpy key.bytes sizeofData
  let len := toInt (copy.result + 1)
  -- the difference is an `int`, the parameter a `size_t`
  let copy' := strlcpy value.bytes (toSize (toInt (sizeofData - len)))
  ([⟨0, copy.stored⟩, ⟨len, copy'.stored⟩], toInt (len + copy'.result))

/-- The message that is handed to `::write`; `address` is the pointer to the key. -/
def request (address : ℕ) (key value : CString) : Message where
  hdr := ⟨XS_WRITE, address % 2 ^ 32, 0, ((copies key value).2 % 2 ^ 32).toNat⟩
  data := (copies key value).1.foldl (fun data s => s.into data) (List.replicate sizeofData 0)

/-- `Store::write`, from the reading of the reply on. -/
def readReply (stores : List Stored) (message : Message) (bus : Bus) : Call :=
  match bus.header with
  | none => ⟨stores, some message, .failed (.text "xenbus read header")⟩
  | some hdr =>
    match bus.payload with
    | none => ⟨stores, some message, .failed (.text "xenbus read data")⟩
    | some payload =>
      let reply : Stored := ⟨0, payload.take hdr.len⟩
      if hdr.type = XS_ERROR then
        let text := (strlcpy (reply.into message.data) sizeofErrorString).stored
        ⟨stores ++ [reply], some message, .failed (.reply text)⟩
      else ⟨stores ++ [reply, ⟨hdr.len, [0]⟩], some message, .succeeded⟩

/-- `Store::write` -/
def write (address : ℕ) (key value : CString) (bus : Bus) : Call :=
  if bus.opens = false then ⟨[], none, .exited "failed to open xenbus"⟩
  else
    let stores := (copies key value).1
    if bus.writes = false then ⟨stores, none, .failed (.text "xenbus write")⟩
    else readReply stores (request address key value) bus

/-- Either nothing is sent and the failure is reported, or what is sent has the right length and
content. -/
def Call.Delivers (call : Call) (key value : CString) : Prop :=
  call.sent = none ∧ call.outcome ≠ .succeeded ∨
    ∃ m, call.sent = some m ∧ m.hdr.len = strlen key + 1 + strlen value ∧
      m.data.length = sizeofData ∧ m.data.take m.hdr.len = key.chars ++ [0] ++ value.chars

/-- The call delivers the key and the value, and never stores outside the data area. -/
def Call.Correct (call : Call) (key value : CString) : Prop :=
  call.Delivers key value ∧ ∀ s ∈ call.stores, s.Within

/-- The reply fits the data area, with the NUL that is put behind it. -/
def Bus.ReplyFits (bus : Bus) : Prop :=
  ∀ hdr payload, bus.header = some hdr → bus.payload = some payload →
    (payload.take hdr.len).length ≤ 2048 ∧ (hdr.type = XS_ERROR ∨ hdr.len < 2048)

/-- The key, the NUL and the value fit the data area, with another NUL behind unless the value is
empty. -/
def Fits (key value : CString) : Prop :=
  strlen key + strlen value ≤ 2046 ∨ strlen key = 2047 ∧ strlen value = 0

/-- The bus cannot be opened; or the place of the value, as an `int` keeps it, is in the data
area, and the message is not sent or it fits and so does the reply. -/
def Writable (key value : CString) (bus : Bus) : Prop :=
  bus.opens = false ∨
    (strlen key + 1) % 2 ^ 32 ≤ 2048 ∧
      (bus.writes = false ∨ Fits key value ∧ bus.ReplyFits)

variable {key value : CString} {bus : Bus} {address : ℕ}

/-- Bytes that take the place of as many others. -/
theorem Stored.into_append (before middle after bytes : List UInt8)
    (h : middle.length = bytes.length) :
    (Stored.mk before.length bytes).into (before ++ middle ++ after) =
      before ++ bytes ++ after := by
  refine List.ext_getElem (by simp [into, h]) fun i hi hi' => ?_
  simp only [into, List.getElem_mapIdx, List.getD_eq_getElem?_getD, List.getElem_append,
    List.length_append, h]
  by_cases hbefore : i < before.length
  · have hlt : ¬ (before.length : ℤ) ≤ i := by omega
    simp [hlt, hbefore, show i < before.length + bytes.length by omega]
  · have hsub : ((i : ℤ) - before.length).toNat = i - before.length := by omega
    rw [if_pos (by omega), hsub]
    by_cases hmiddle : i < before.length + bytes.length
    · have hin : i - before.length < bytes.length := by omega
      simp [hbefore, hmiddle, List.getElem?_eq_getElem hin]
    · have hout : bytes.length ≤ i - before.length := by omega
      simp [hmiddle, List.getElem?_eq_none hout]

/-- Two strings of bytes stored one behind the other in an area of zeros. -/
theorem Stored.into_zeros {first second : List UInt8} {size : ℕ}
    (h : first.length + second.length ≤ size) :
    (Stored.mk first.length second).into ((Stored.mk 0 first).into (List.replicate size 0)) =
      first ++ second ++ List.replicate (size - (first.length + second.length)) 0 := by
  have hsize : size = first.length + (second.length + (size - (first.length + second.length))) := by
    omega
  have hfirst := into_append [] (List.replicate first.length 0)
    (List.replicate (second.length + (size - (first.length + second.length))) 0) first
    List.length_replicate
  have hsecond := into_append first (List.replicate second.length 0)
    (List.replicate (size - (first.length + second.length)) 0) second List.length_replicate
  rw [List.nil_append, List.nil_append, List.replicate_append_replicate, ← hsize] at hfirst
  rw [List.append_assoc, List.replicate_append_replicate] at hsecond
  exact (congrArg _ hfirst).trans hsecond

@[simp] theorem Stored.length_into (s : Stored) (data : List UInt8) :
    (s.into data).length = data.length :=
  List.length_mapIdx

/-- What the second `strlcpy` takes for the size of its array. -/
def room (key : CString) : ℕ := toSize (toInt (sizeofData - toInt (strlen key + 1)))

theorem copies_eq (key value : CString) : copies key value =
    ([⟨0, key.chars.take 2047 ++ [0]⟩, ⟨toInt (strlen key + 1),
      if room key = 0 then [] else value.chars.take (room key - 1) ++ [0]⟩],
      toInt (toInt (strlen key + 1) + strlen value)) := by
  simp only [copies, CString.bytes, strlcpy_eq, room]
  rfl

theorem room_of_le (h : (strlen key + 1) % 2 ^ 32 ≤ 2048) :
    toInt (strlen key + 1) = ((strlen key + 1) % 2 ^ 32 : ℕ) ∧
      room key = 2048 - (strlen key + 1) % 2 ^ 32 := by
  have hlen : toInt (strlen key + 1) = ((strlen key + 1) % 2 ^ 32 : ℕ) := by
    rw [toInt_of_lt (by omega)]
    omega
  refine ⟨hlen, ?_⟩
  rw [room, hlen, sizeofData, toInt_eq_self (by omega) (by omega),
    toSize_eq_self (by omega) (by omega)]
  omega

/-- The size is no longer that of what is left of the array. -/
theorem room_of_gt (h : 2048 < (strlen key + 1) % 2 ^ 32) :
    room key ≠ 0 ∧ (toInt (strlen key + 1) < 0 ∨ 2048 < toInt (strlen key + 1)) := by
  have hsplit : (toInt (strlen key + 1) = (strlen key + 1 : ℤ) % 2 ^ 32) ∨
      (toInt (strlen key + 1) = (strlen key + 1 : ℤ) % 2 ^ 32 - 2 ^ 32) := by
    by_cases hlt : (strlen key + 1 : ℤ) % 2 ^ 32 < 2 ^ 31
    · exact .inl (toInt_of_lt hlt)
    · exact .inr (toInt_of_ge (Int.not_lt.mp hlt))
  refine ⟨toSize_toInt_ne_zero ?_, ?_⟩
  · rw [sizeofData]
    omega
  · omega

/-- Nothing is stored outside just when the place of the value is in the data area. -/
theorem copies_within_iff (key value : CString) :
    (∀ s ∈ (copies key value).1, s.Within) ↔ (strlen key + 1) % 2 ^ 32 ≤ 2048 := by
  have hkey : (Stored.mk 0 (key.chars.take 2047 ++ [0])).Within := by
    refine .inr ⟨Int.le_refl 0, ?_⟩
    simp only [List.length_append, List.length_take, List.length_singleton, sizeofData]
    omega
  rw [copies_eq]
  constructor
  · intro h
    by_contra hgt
    obtain ⟨hroom, hlen⟩ := room_of_gt (Nat.not_le.mp hgt)
    have hvalue := h _ (List.mem_cons_of_mem _ (List.mem_singleton_self _))
    rw [if_neg hroom] at hvalue
    rcases hvalue with hnil | ⟨hpos, hend⟩
    · exact List.append_ne_nil_of_right_ne_nil _ (List.cons_ne_nil _ _) hnil
    · simp only [List.length_append, List.length_singleton, sizeofData] at hpos hend
      omega
  · intro hle s hs
    obtain ⟨hlen, hroom⟩ := room_of_le hle
    rcases List.mem_cons.mp hs with rfl | hs
    · exact hkey
    · obtain rfl := List.mem_singleton.mp hs
      by_cases hzero : room key = 0
      · left
        simp only [if_pos hzero]
      · right
        simp only [hlen, if_neg hzero, List.length_append, List.length_take,
          List.length_singleton, sizeofData]
        omega

/-- What the second `strlcpy` stores behind a key that fits. -/
def valueBytes (key value : CString) : List UInt8 :=
  if strlen key = 2047 then [] else value.chars.take (2046 - strlen key) ++ [0]

theorem valueBytes_length (value : CString) (hkey : strlen key ≤ 2047) :
    (valueBytes key value).length ≤ 2047 - strlen key := by
  unfold valueBytes
  split
  · exact Nat.zero_le _
  · rw [List.length_append, List.length_take, List.length_singleton]
    omega

theorem request_data_eq_foldl (address : ℕ) (key value : CString) :
    (request address key value).data = (copies key value).1.foldl (fun data s => s.into data)
      (List.replicate sizeofData 0) := by
  rw [request]

/-- The data area, with a key that fits it. -/
theorem request_data (address : ℕ) (value : CString) (hkey : strlen key ≤ 2047) :
    (request address key value).data = key.chars ++ [0] ++ valueBytes key value ++ List.replicate
      (sizeofData - ((key.chars ++ [0]).length + (valueBytes key value).length)) 0 := by
  have hsize : (strlen key + 1) % 2 ^ 32 ≤ 2048 := by omega
  obtain ⟨hlen, hroom⟩ := room_of_le hsize
  have hmod : (strlen key + 1) % 2 ^ 32 = strlen key + 1 := Nat.mod_eq_of_lt (by omega)
  have htake : key.chars.take 2047 = key.chars := List.take_of_length_le hkey
  have hvalue : (if room key = 0 then [] else value.chars.take (room key - 1) ++ [0]) =
      valueBytes key value := by
    have hleft : room key - 1 = 2046 - strlen key := by omega
    have hfull : room key = 0 ↔ strlen key = 2047 := by omega
    rw [valueBytes, hleft, if_congr hfull rfl rfl]
  have hplace : toInt (strlen key + 1) = (key.chars ++ [0]).length := by
    rw [hlen, hmod, List.length_append]
    rfl
  have hfits : (key.chars ++ [0]).length + (valueBytes key value).length ≤ sizeofData := by
    have hbytes := valueBytes_length value hkey
    unfold strlen at *
    rw [List.length_append, List.length_singleton, sizeofData]
    omega
  rw [request_data_eq_foldl, copies_eq, List.foldl_cons, List.foldl_cons, List.foldl_nil, hvalue,
    htake, hplace, Stored.into_zeros hfits]

theorem request_data_length (address : ℕ) (key value : CString) :
    (request address key value).data.length = sizeofData := by
  rw [request_data_eq_foldl, copies_eq, List.foldl_cons, List.foldl_cons, List.foldl_nil,
    Stored.length_into, Stored.length_into, List.length_replicate]

theorem request_len (address : ℕ) (key value : CString) :
    (request address key value).hdr.len = (strlen key + 1 + strlen value) % 2 ^ 32 := by
  have hmod : toInt (toInt (strlen key + 1) + strlen value) % 2 ^ 32 =
      (strlen key + 1 + strlen value : ℤ) % 2 ^ 32 := by
    rw [toInt_emod, Int.add_emod, toInt_emod, ← Int.add_emod]
  rw [request, copies_eq]
  simp only [hmod]
  omega

/-- The value stands whole behind a key that fits just when the two fit together. -/
theorem valueBytes_take_iff (hkey : strlen key ≤ 2047) (zeros : ℕ) :
    (valueBytes key value ++ List.replicate zeros 0).take (strlen value) = value.chars ↔
      Fits key value := by
  unfold Fits
  by_cases hfull : strlen key = 2047
  · rw [valueBytes, if_pos hfull, List.nil_append]
    constructor
    · intro h
      have hnil : value.chars = [] := List.eq_nil_iff_forall_not_mem.mpr fun c hc => by
        have hmem := List.mem_of_mem_take (h ▸ hc)
        exact value.noNul (List.eq_of_mem_replicate hmem ▸ hc)
      exact .inr ⟨hfull, congrArg List.length hnil⟩
    · intro h
      have hzero : strlen value = 0 := by omega
      rw [hzero, List.take_zero, List.length_eq_zero_iff.mp hzero]
  · rw [valueBytes, if_neg hfull]
    constructor
    · intro h
      by_contra hover
      have hlen : (value.chars.take (2046 - strlen key) ++ [0]).length ≤ strlen value := by
        rw [List.length_append, List.length_take, List.length_singleton]
        omega
      rw [List.take_append, List.take_of_length_le hlen] at h
      have hmem : (0 : UInt8) ∈ value.chars := by
        rw [← h]
        simp
      exact value.noNul hmem
    · intro h
      have hle : value.chars.length ≤ 2046 - strlen key := by
        unfold strlen at *
        omega
      rw [List.take_of_length_le hle, List.append_assoc, strlen, List.take_left]

/-- The message is right just when key and value fit. -/
theorem request_right_iff (address : ℕ) (key value : CString) :
    ((request address key value).hdr.len = strlen key + 1 + strlen value ∧
      (request address key value).data.take (strlen key + 1 + strlen value) =
        key.chars ++ [0] ++ value.chars) ↔ Fits key value := by
  have hplace : strlen key + 1 + strlen value = (key.chars ++ [0]).length + strlen value := by
    rw [List.length_append]
    rfl
  have htake (hkey : strlen key ≤ 2047) :
      (request address key value).data.take (strlen key + 1 + strlen value) =
        key.chars ++ [0] ++ value.chars ↔ Fits key value := by
    rw [request_data address value hkey, List.append_assoc (key.chars ++ [0]), hplace,
      List.take_length_add_append, List.append_cancel_left_eq, valueBytes_take_iff hkey]
  constructor
  · rintro ⟨hlen, hdata⟩
    have htotal := congrArg List.length hdata
    rw [List.length_take, request_data_length, sizeofData, List.length_append, hplace] at htotal
    refine (htake ?_).mp hdata
    unfold strlen at *
    omega
  · intro hfits
    have hkey : strlen key ≤ 2047 := by
      unfold Fits at hfits
      omega
    refine ⟨?_, (htake hkey).mpr hfits⟩
    rw [request_len]
    unfold Fits at hfits
    omega

theorem stored_within (offset : ℤ) (bytes : List UInt8) : (Stored.mk offset bytes).Within ↔
    bytes = [] ∨ 0 ≤ offset ∧ offset + bytes.length ≤ 2048 :=
  Iff.rfl

theorem within_reply_iff (bytes : List UInt8) :
    (Stored.mk 0 bytes).Within ↔ bytes.length ≤ 2048 := by
  rw [stored_within]
  constructor
  · rintro (rfl | ⟨-, hend⟩)
    · exact Nat.zero_le _
    · omega
  · intro h
    exact .inr ⟨Int.le_refl 0, by omega⟩

theorem within_nul_iff (len : ℕ) : (Stored.mk len [0]).Within ↔ len < 2048 := by
  rw [stored_within, List.length_singleton]
  constructor
  · rintro (hnil | ⟨-, hend⟩)
    · exact absurd hnil (List.cons_ne_nil _ _)
    · omega
  · intro h
    exact .inr ⟨Int.natCast_nonneg len, by omega⟩

@[simp] theorem readReply_sent (stores : List Stored) (message : Message) (bus : Bus) :
    (readReply stores message bus).sent = some message := by
  unfold readReply
  split
  · rfl
  · split
    · rfl
    · split <;> rfl

theorem readReply_within_iff (stores : List Stored) (message : Message) (bus : Bus) :
    (∀ s ∈ (readReply stores message bus).stores, s.Within) ↔
      (∀ s ∈ stores, s.Within) ∧ bus.ReplyFits := by
  unfold readReply Bus.ReplyFits
  split
  · rename_i hheader
    simp [hheader]
  · rename_i hdr hheader
    split
    · rename_i hpayload
      simp [hheader, hpayload]
    · rename_i payload hpayload
      split
      · rename_i herror
        simp [hheader, hpayload, herror, within_reply_iff, or_imp, forall_and]
      · rename_i hok
        simp [hheader, hpayload, hok, within_reply_iff, within_nul_iff, or_imp, forall_and]

/-- A call is correct just when what it has to write is writable. -/
theorem write_correct_iff (address : ℕ) (key value : CString) (bus : Bus) :
    (write address key value bus).Correct key value ↔ Writable key value bus := by
  unfold write Writable
  by_cases hopens : bus.opens = false
  · rw [if_pos hopens]
    refine ⟨fun _ => .inl hopens, fun _ => ⟨.inl ⟨rfl, ?_⟩, fun s hs => ?_⟩⟩
    · rintro ⟨⟩
    · exact absurd hs List.not_mem_nil
  · rw [if_neg hopens, or_iff_right hopens]
    by_cases hwrites : bus.writes = false
    · rw [if_pos hwrites, Call.Correct, copies_within_iff]
      refine ⟨fun h => ⟨h.2, .inl hwrites⟩, fun h => ⟨.inl ⟨rfl, ?_⟩, h.1⟩⟩
      rintro ⟨⟩
    · rw [if_neg hwrites, or_iff_right hwrites, Call.Correct, readReply_within_iff,
        copies_within_iff, ← request_right_iff address]
      unfold Call.Delivers
      rw [readReply_sent]
      constructor
      · rintro ⟨hdelivers, hle, hreply⟩
        rcases hdelivers with ⟨hnone, -⟩ | ⟨m, hm, hlen, -, hdata⟩
        · cases hnone
        · obtain rfl := Option.some.inj hm
          exact ⟨hle, ⟨hlen, hlen ▸ hdata⟩, hreply⟩
      · rintro ⟨hle, ⟨hlen, hdata⟩, hreply⟩
        exact ⟨.inr ⟨_, rfl, hlen, request_data_length _ _ _, hlen ▸ hdata⟩, hle, hreply⟩

/-- A bus that takes the message and answers "OK". -/
def goodBus : Bus := ⟨true, true, some ⟨XS_WRITE, 0, 0, 3⟩, some [0x4F, 0x4B, 0]⟩

def longKey : CString where
  chars := List.replicate 2048 107
  noNul := fun h => absurd (List.eq_of_mem_replicate h) (by decide)

def emptyValue : CString := ⟨[], List.not_mem_nil⟩

/-- The NUL of the empty value is stored behind the data area. -/
theorem longKey_not_correct : Stored.mk 2049 [0] ∈ (copies longKey emptyValue).1 ∧
    ¬ (Stored.mk 2049 [0]).Within ∧
    ¬ (write 0 longKey emptyValue goodBus).Correct longKey emptyValue := by
  have hlen : strlen longKey = 2048 := List.length_replicate
  have hnot : ¬ (Stored.mk 2049 [0]).Within := by
    rintro (hnil | ⟨-, hend⟩)
    · exact List.cons_ne_nil _ _ hnil
    · exact absurd hend (by decide)
  have hmem : Stored.mk 2049 [0] ∈ (copies longKey emptyValue).1 := by
    have hsize : 2048 < (strlen longKey + 1) % 2 ^ 32 := by
      rw [hlen]
      decide
    have hroom := (room_of_gt hsize).1
    have hplace : toInt ((2048 : ℕ) + 1) = 2049 := by decide
    rw [copies_eq, if_neg hroom, hlen, hplace, emptyValue, List.take_nil, List.nil_append]
    exact List.mem_cons_of_mem _ (List.mem_singleton_self _)
  refine ⟨hmem, hnot, fun h => hnot (h.2 _ ?_)⟩
  rw [write, if_neg (by decide), if_neg (by decide), readReply]
  exact List.mem_append_left _ hmem

end Redx.XenStore
