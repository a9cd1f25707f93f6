import Redx.NetLink.Reads
import Redx.Library.Store
import Mathlib.Data.Vector.Basic

/-!
# Requests about addresses

A request is put together in a struct inside of the message object: the constructor sets the
length, the type and the flags, and then the fields of the fixed part are set and attributes are
appended behind it. The struct is not cleared first.
-/
namespace Redx.NetLink
open Library

namespace Request

def nlmFRequest : ℕ := 1
def nlmFAck : ℕ := 4
def rtmNewaddr : ℕ := 20

/-- `sizeof request.buffer` -/
def sizeofBuffer : ℕ := 2048

/-- `AddressMessage( type )`, on the memory that `request` takes up. -/
def addressMessage (request : ℕ → UInt8) (type : ℕ) : ℕ → UInt8 :=
  let request := store request 0 (bytesOf 4 (sizeofHeader + sizeofIfaddrmsg))
  let request := store request 6 (bytesOf 2 (nlmFRequest ||| nlmFAck))
  store request 4 (bytesOf 2 type)

/-- `AddressMessage::append` -/
def append (request : ℕ → UInt8) (type : ℕ) (data : List UInt8) : ℕ → UInt8 :=
  let length := sizeofAttribute + data.length
  let rta := align (nlmsgLen request 0)
  let request := store request (rta + 2) (bytesOf 2 type)
  let request := store request rta (bytesOf 2 length)
  let request := store request (rta + sizeofAttribute) data
  store request 0 (bytesOf 4 (align (nlmsgLen request 0) + rtaAlign length))

/-- The members that change a request. -/
inductive Op where
  | append (a : Attribute)
  | family (fam : UInt8)
  | prefixlen (bits : UInt8)
  | flags (set : UInt8)
  | scope (id : UInt8)
  | index (intf : UInt32)

namespace Op

def run (request : ℕ → UInt8) : Op → ℕ → UInt8
  | .append a => Request.append request a.type a.payload
  | .family fam => store request 16 [fam]
  | .prefixlen bits => store request 17 [bits]
  | .flags set => store request 18 [set]
  | .scope id => store request 19 [id]
  | .index intf => store request 20 (bytesOf 4 intf.toNat)

/-- How much the operation adds to the request. -/
def room : Op → ℕ
  | .append a => rtaAlign a.length
  | _ => 0

/-- The addresses that the operation writes to, in a request of some length. -/
def Writes (length : ℕ) : Op → ℕ → Prop
  | .append a, x => x < 4 ∨ (length ≤ x ∧ x < length + a.length)
  | .family _, x => x = 16
  | .prefixlen _, x => x = 17
  | .flags _, x => x = 18
  | .scope _, x => x = 19
  | .index _, x => 20 ≤ x ∧ x < 24

def appended : Op → Option Attribute
  | .append a => some a
  | _ => none

end Op

/-- A request of a type, once the operations were run. -/
def build (request : ℕ → UInt8) (type : ℕ) (ops : List Op) : ℕ → UInt8 :=
  ops.foldl Op.run (addressMessage request type)

/-- The part of the buffer that the appended attributes take up. -/
def room (ops : List Op) : ℕ := (ops.map Op.room).sum

/-- `AddressMessage::send`: the bytes handed to the socket. -/
def send (request : ℕ → UInt8) : List UInt8 := load request 0 (nlmsgLen request 0)

/-- A `struct in_addr` or a `struct in6_addr`. -/
inductive Address where
  | v4 (address : List.Vector UInt8 4)
  | v6 (address : List.Vector UInt8 16)

namespace Address

def bytes : Address → List UInt8
  | .v4 address => address.toList
  | .v6 address => address.toList

def family : Address → UInt8
  | .v4 _ => afInet
  | .v6 _ => afInet6

/-- All bits of the address. -/
def bits : Address → UInt8
  | .v4 _ => 32
  | .v6 _ => 128

theorem length_bytes (address : Address) :
    address.bytes.length = 4 ∨ address.bytes.length = 16 := by
  cases address with
  | v4 address => exact .inl address.toList_length
  | v6 address => exact .inr address.toList_length

theorem length_lt (address : Address) : sizeofAttribute + address.bytes.length < 2 ^ 16 := by
  rcases address.length_bytes with h | h <;> rw [h] <;> decide

theorem ifaLocal_lt : ifaLocal < 2 ^ 16 := by decide
theorem ifaAddress_lt : ifaAddress < 2 ^ 16 := by decide

/-- The attribute `IFA_LOCAL` with the address. -/
def localAttribute (address : Address) : Attribute where
  type := ifaLocal
  payload := address.bytes
  type_lt := ifaLocal_lt
  length_lt := address.length_lt

/-- The attribute `IFA_ADDRESS` with the address. -/
def addressAttribute (address : Address) : Attribute where
  type := ifaAddress
  payload := address.bytes
  type_lt := ifaAddress_lt
  length_lt := address.length_lt

end Address

def rtScopeLink : UInt8 := 253

/-- `NewAddress( interface_index, address )`, and a call of `prefix` if there is one. -/
def newAddress (index : UInt32) (address : Address) (bits : Option UInt8) : List Op :=
  [.family address.family, .index index, .scope rtScopeLink, .prefixlen address.bits,
    .append address.localAttribute, .append address.addressAttribute] ++
    bits.toList.map .prefixlen

/-- The bytes of `nlmsg_seq`, `nlmsg_pid` and `ifa_flags`. -/
def Unset (x : ℕ) : Prop := (8 ≤ x ∧ x < 16) ∨ x = 18

/-- The addresses that some operations write to, in a request of some length. -/
def Written : ℕ → List Op → ℕ → Prop
  | _, [], _ => False
  | length, op :: ops, x => op.Writes length x ∨ Written (length + op.room) ops x

/-- The length of a request in order: it covers the fixed part, is aligned and fits. -/
structure Ready (request : ℕ → UInt8) (length : ℕ) : Prop where
  len : nlmsgLen request 0 = length
  fixed : sizeofHeader + sizeofIfaddrmsg ≤ length
  aligned : length % 4 = 0
  fits : length ≤ sizeofHeader + sizeofIfaddrmsg + sizeofBuffer

variable {request request' : ℕ → UInt8} {type length x : ℕ} {op : Op} {ops : List Op}
  {a : Attribute} {data : List UInt8}

theorem align_of_aligned (h : length % 4 = 0) (hlt : length + 3 < 2 ^ 32) :
    align length = length := by
  rw [align, Nat.mod_eq_of_lt hlt]
  omega

theorem ready_addressMessage (request : ℕ → UInt8) (type : ℕ) :
    Ready (addressMessage request type) (sizeofHeader + sizeofIfaddrmsg) := by
  refine ⟨?_, le_rfl, rfl, Nat.le_add_right ..⟩
  rw [nlmsgLen, addressMessage]
  rw [valueAt_store_of_apart (.inl (by decide)), valueAt_store_of_apart (.inl (by decide)),
    valueAt_store]
  rfl

/-- An attribute goes to the end of the request, and the length grows by what it takes up. -/
theorem append_eq (hr : Ready request length) : append request type data =
    store (store (store (store request (length + 2) (bytesOf 2 type))
      length (bytesOf 2 (sizeofAttribute + data.length))) (length + sizeofAttribute) data)
      0 (bytesOf 4 (length + rtaAlign (sizeofAttribute + data.length))) := by
  obtain ⟨hlen, hfixed, haligned, hfits⟩ := hr
  have halign : align length = length := by
    refine align_of_aligned haligned ?_
    simp only [sizeofHeader, sizeofIfaddrmsg, sizeofBuffer] at hfits
    omega
  have hsize : 4 ≤ length := by
    simp only [sizeofHeader, sizeofIfaddrmsg] at hfixed
    omega
  rw [append]
  rw [hlen, halign, nlmsgLen, valueAt_store_of_apart (.inl (by omega)),
    valueAt_store_of_apart (.inl (by omega)), valueAt_store_of_apart (.inl (by omega)),
    ← nlmsgLen, hlen, halign]

theorem rtaAlign_mod (n : ℕ) : rtaAlign n % 4 = 0 := by
  rw [rtaAlign]
  omega

/-- A byte or a word of the fixed part does not touch the length. -/
theorem Ready.store (hr : Ready request length) {bytes : List UInt8} (hx : 4 ≤ x) :
    Ready (store request x bytes) length := by
  refine ⟨?_, hr.fixed, hr.aligned, hr.fits⟩
  rw [← hr.len]
  exact valueAt_store_of_apart (.inl hx)

theorem Ready.run (hr : Ready request length)
    (hfits : length + op.room ≤ sizeofHeader + sizeofIfaddrmsg + sizeofBuffer) :
    Ready (op.run request) (length + op.room) := by
  cases op with
  | append a =>
    have haligned := hr.aligned
    have hroom : rtaAlign a.length % 4 = 0 := rtaAlign_mod _
    simp only [Op.room] at hfits ⊢
    refine ⟨?_, hr.fixed.trans (Nat.le_add_right ..), by omega, hfits⟩
    rw [Op.run, append_eq hr, nlmsgLen, valueAt_store]
    refine Nat.mod_eq_of_lt ?_
    simp only [sizeofHeader, sizeofIfaddrmsg, sizeofBuffer] at hfits
    exact Nat.lt_of_le_of_lt hfits (by decide)
  | family _ | prefixlen _ | flags _ | scope _ | index _ => exact hr.store (by decide)

theorem Ready.foldl (hr : Ready request length)
    (hfits : length + room ops ≤ sizeofHeader + sizeofIfaddrmsg + sizeofBuffer) :
    Ready (ops.foldl Op.run request) (length + room ops) := by
  induction ops generalizing request length with
  | nil => exact hr
  | cons op ops ih =>
    rw [room, List.map_cons, List.sum_cons, ← Nat.add_assoc] at hfits ⊢
    exact ih (hr.run (by omega)) hfits

/-- The length of a request accounts for every attribute. -/
theorem ready_build (request : ℕ → UInt8) (type : ℕ) (hfits : room ops ≤ sizeofBuffer) :
    Ready (build request type ops) (sizeofHeader + sizeofIfaddrmsg + room ops) :=
  (ready_addressMessage request type).foldl (by omega)

/-- After an operation two requests agree where they did before, and where it writes. -/
theorem run_agrees (hr : Ready request length) (hr' : Ready request' length) :
    op.run request x = op.run request' x ↔ request x = request' x ∨ op.Writes length x := by
  cases op with
  | append a =>
    rw [Op.run, Op.run, append_eq hr, append_eq hr']
    simp only [store_agrees, length_bytesOf, Op.Writes, Attribute.length, or_assoc]
    refine or_congr Iff.rfl ?_
    simp only [sizeofAttribute]
    omega
  | index _ => simp only [Op.run, store_agrees, Op.Writes, length_bytesOf]
  | family _ | prefixlen _ | flags _ | scope _ =>
    simp only [Op.run, store_agrees, Op.Writes, List.length_singleton]
    refine or_congr Iff.rfl ?_
    omega

theorem foldl_agrees (hr : Ready request length) (hr' : Ready request' length)
    (hfits : length + room ops ≤ sizeofHeader + sizeofIfaddrmsg + sizeofBuffer) :
    ops.foldl Op.run request x = ops.foldl Op.run request' x ↔
      request x = request' x ∨ Written length ops x := by
  induction ops generalizing request request' length with
  | nil => simp [Written]
  | cons op ops ih =>
    rw [room, List.map_cons, List.sum_cons, ← Nat.add_assoc] at hfits
    have hstep : length + op.room ≤ sizeofHeader + sizeofIfaddrmsg + sizeofBuffer := by omega
    rw [List.foldl_cons, List.foldl_cons, ih (hr.run hstep) (hr'.run hstep) hfits,
      run_agrees hr hr', Written, or_assoc]

/-- Two requests that were put together alike agree where the memories did, and where the
constructor or an operation writes. -/
theorem build_agrees (hfits : room ops ≤ sizeofBuffer) :
    build request type ops x = build request' type ops x ↔
      request x = request' x ∨ x < 8 ∨ Written (sizeofHeader + sizeofIfaddrmsg) ops x := by
  rw [build, build, foldl_agrees (ready_addressMessage _ _) (ready_addressMessage _ _) (by omega)]
  simp only [addressMessage, store_agrees, length_bytesOf]
  rw [or_assoc, or_assoc, or_assoc]
  refine or_congr Iff.rfl ?_
  rw [← or_assoc, ← or_assoc]
  refine or_congr ?_ Iff.rfl
  omega

/-- The address is a whole number of words, so its attributes have no padding. -/
theorem Address.align_length (address : Address) :
    rtaAlign (sizeofAttribute + address.bytes.length) = sizeofAttribute + address.bytes.length := by
  rcases address.length_bytes with h | h <;> rw [h] <;> rfl

theorem room_newAddress (index : UInt32) (address : Address) (bits : Option UInt8) :
    room (newAddress index address bits) = 2 * (sizeofAttribute + address.bytes.length) := by
  rw [Nat.two_mul]
  nth_rewrite 1 [← address.align_length]
  nth_rewrite 2 [← address.align_length]
  cases bits <;> simp [room, newAddress, Op.room, Attribute.length, Address.localAttribute,
    Address.addressAttribute]

theorem room_newAddress_le (index : UInt32) (address : Address) (bits : Option UInt8) :
    room (newAddress index address bits) ≤ sizeofBuffer := by
  rw [room_newAddress]
  rcases address.length_bytes with h | h <;> rw [h] <;> decide

/-- Of the bytes that are sent, the operations write to all of the fixed part but the flags, and
to all of the attributes. -/
theorem written_newAddress (index : UInt32) (address : Address) (bits : Option UInt8)
    (hx : x < sizeofHeader + sizeofIfaddrmsg + room (newAddress index address bits)) :
    Written (sizeofHeader + sizeofIfaddrmsg) (newAddress index address bits) x ↔
      x < 4 ∨ (16 ≤ x ∧ x ≠ 18) := by
  have hlocal : address.localAttribute.length = sizeofAttribute + address.bytes.length := rfl
  have haddress : address.addressAttribute.length = sizeofAttribute + address.bytes.length := rfl
  rw [room_newAddress] at hx
  cases bits with
  | none | some b =>
    simp only [newAddress, List.cons_append, List.nil_append, Option.toList_none,
      Option.toList_some, List.map_nil, List.map_cons, Written, Op.Writes, Op.room, hlocal,
      haddress, address.align_length, or_false]
    simp only [sizeofHeader, sizeofIfaddrmsg, sizeofAttribute] at *
    omega

/-- What is sent for a new address is the same for two contents of the memory of the request if
and only if they have the same sequence number, port and address flags. -/
theorem send_agree_iff (request request' : ℕ → UInt8) (index : UInt32) (address : Address)
    (bits : Option UInt8) :
    send (build request rtmNewaddr (newAddress index address bits)) =
        send (build request' rtmNewaddr (newAddress index address bits)) ↔
      ∀ x, Unset x → request x = request' x := by
  have hfits := room_newAddress_le index address bits
  have hlen := (ready_build request rtmNewaddr hfits).len
  have hlen' := (ready_build request' rtmNewaddr hfits).len
  have hroom := room_newAddress index address bits
  rw [send, send, hlen, hlen', load_eq_load]
  simp only [Nat.zero_add]
  constructor
  · intro h x hunset
    unfold Unset at hunset
    have hx : x < sizeofHeader + sizeofIfaddrmsg + room (newAddress index address bits) := by
      simp only [sizeofHeader, sizeofIfaddrmsg]
      omega
    have hagree := (build_agrees hfits).mp (h x hx)
    rw [written_newAddress index address bits hx] at hagree
    refine hagree.resolve_right ?_
    omega
  · intro h x hx
    rw [build_agrees hfits, written_newAddress index address bits hx]
    by_cases hunset : Unset x
    · exact .inl (h x hunset)
    · unfold Unset at hunset
      right
      omega

/-- The address ::1. -/
def loopback : Address := .v6 ⟨List.replicate 15 0 ++ [1], rfl⟩

/-- Requests for the same address differ in their sequence numbers. -/
theorem send_not_determined :
    ¬ ∀ request request', send (build request rtmNewaddr (newAddress 1 loopback none)) =
      send (build request' rtmNewaddr (newAddress 1 loopback none)) := by
  intro hall
  have heq := congrArg (·[8]?) (hall (fun _ => 0) (fun _ => 1))
  exact absurd heq (by decide +kernel)

end Request
end Redx.NetLink
