import Redx.Library.Store
import Mathlib.Data.Vector.Basic
import Mathlib.Logic.Function.Basic

/-!
# ICMPv6 messages

An object of a message class holds the header of the base class and, in the two classes for
neighbours, a struct of its own. The table of factories, indexed by the type of a message, says
which class is made of it and how much of the received bytes the object takes over.
-/
namespace Redx.ICMPv6
open Library

def icmp6EchoRequest : UInt8 := 128
def icmp6EchoReply : UInt8 := 129
def ndNeighborSolicit : UInt8 := 135
def ndNeighborAdvert : UInt8 := 136

/-- `sizeof(struct icmp6_hdr)` -/
def sizeofHeader : ℕ := 8

/-- `sizeof(struct nd_neighbor_solicit)` -/
def sizeofSolicit : ℕ := 24

/-- A `struct nd_neighbor_advert`, a `struct nd_opt_hdr` and six bytes. -/
def sizeofAdvert : ℕ := 32

/-- What a struct of `n` bytes holds. -/
abbrev Image (n : ℕ) := List.Vector UInt8 n

/-- `memcpy` from a received message into a struct. -/
def memcpy (hdr : ℕ → UInt8) (n : ℕ) : Image n := ⟨load hdr 0 n, length_load⟩

/-- The objects, with the member `header` first. -/
inductive Pdu where
  | pdu (header : Image sizeofHeader)
  | echoRequest (header : Image sizeofHeader)
  | echoReply (header : Image sizeofHeader)
  | neighborSolicitation (header : Image sizeofHeader) (pdu : Image sizeofSolicit)
  | neighborAdvertisement (header : Image sizeofHeader) (pdu : Image sizeofAdvert)
  deriving DecidableEq

/-- The `header` that `PDU( pdu_type, pdu_code )` leaves. -/
def typed (pduType pduCode : UInt8) : Image sizeofHeader :=
  ⟨[pduType, pduCode, 0, 0, 0, 0, 0, 0], rfl⟩

abbrev Factory := (ℕ → UInt8) → Pdu

/-- `PDU::Factory` -/
def pduFactory : Factory := fun hdr => .pdu (typed (hdr 0) 0)

/-- `EchoRequest::Factory` -/
def echoRequestFactory : Factory := fun _ => .echoRequest (typed icmp6EchoRequest 0)

/-- `EchoReply::Factory` -/
def echoReplyFactory : Factory := fun _ => .echoReply (typed icmp6EchoReply 0)

/-- `NeighborSolicitation::Factory` -/
def neighborSolicitationFactory : Factory := fun hdr =>
  .neighborSolicitation (typed ndNeighborSolicit 0) (memcpy hdr sizeofSolicit)

/-- `NeighborAdvertisement::Factory` -/
def neighborAdvertisementFactory : Factory := fun hdr =>
  .neighborAdvertisement (typed ndNeighborAdvert 0) (memcpy hdr sizeofAdvert)

/-- The table that `init_factories` leaves. -/
def factories : UInt8 → Option Factory :=
  let table : UInt8 → Option Factory := fun _ => some pduFactory
  let table := Function.update table icmp6EchoRequest (some echoRequestFactory)
  let table := Function.update table icmp6EchoReply (some echoReplyFactory)
  let table := Function.update table ndNeighborSolicit (some neighborSolicitationFactory)
  Function.update table ndNeighborAdvert (some neighborAdvertisementFactory)

namespace Pdu

/-- The struct that the class of the object uses for its message. -/
def message : Pdu → List UInt8
  | .pdu header => header.toList
  | .echoRequest header => header.toList
  | .echoReply header => header.toList
  | .neighborSolicitation _ own => own.toList
  | .neighborAdvertisement _ own => own.toList

/-- The bytes that `send` hands to the socket. -/
def send (p : Pdu) : List UInt8 := p.message

def type (p : Pdu) : Option UInt8 := p.message[0]?
def code (p : Pdu) : Option UInt8 := p.message[1]?

/-- The header behind the type and the code. -/
def rest (p : Pdu) : List UInt8 := (p.message.take sizeofHeader).drop 2

def target : Pdu → Option (List UInt8)
  | .neighborSolicitation _ own => some ((own.toList.drop sizeofHeader).take 16)
  | .neighborAdvertisement _ own => some ((own.toList.drop sizeofHeader).take 16)
  | _ => none

end Pdu

/-- The messages whose class has a struct of its own. -/
def IsNeighbor (type : UInt8) : Prop := type = ndNeighborSolicit ∨ type = ndNeighborAdvert

instance (type : UInt8) : Decidable (IsNeighbor type) := inferInstanceAs (Decidable (_ ∨ _))

/-- The size of the message struct of the class that a type selects. -/
def size (type : UInt8) : ℕ :=
  if type = ndNeighborSolicit then sizeofSolicit
  else if type = ndNeighborAdvert then sizeofAdvert
  else sizeofHeader

variable {type : UInt8} {hdr hdr' : ℕ → UInt8}

theorem sizeofHeader_le_size (type : UInt8) : sizeofHeader ≤ size type := by
  unfold size
  split_ifs <;> decide

/-- The element of the table at a type. -/
def selected (type : UInt8) : Factory :=
  if type = ndNeighborAdvert then neighborAdvertisementFactory
  else if type = ndNeighborSolicit then neighborSolicitationFactory
  else if type = icmp6EchoReply then echoReplyFactory
  else if type = icmp6EchoRequest then echoRequestFactory
  else pduFactory

/-- A factory stands at every type. -/
theorem factories_eq (type : UInt8) : factories type = some (selected type) := by
  simp only [factories, selected, Function.update_apply]
  split_ifs <;> rfl

/-- The factories for neighbours copy the whole struct, the others keep the type alone. -/
theorem message_selected (h : hdr 0 = type) : (selected type hdr).message =
    if IsNeighbor type then load hdr 0 (size type) else (typed type 0).toList := by
  unfold selected
  by_cases hadvert : type = ndNeighborAdvert
  · subst hadvert
    rfl
  by_cases hsolicit : type = ndNeighborSolicit
  · subst hsolicit
    rfl
  have hother : ¬ IsNeighbor type := not_or_intro hsolicit hadvert
  rw [if_neg hadvert, if_neg hsolicit, if_neg hother]
  split_ifs with hreply hrequest
  · rw [hreply]
    rfl
  · rw [hrequest]
    rfl
  · rw [← h]
    rfl

/-- The object depends on the type and, in the classes for neighbours, on what their struct
takes. -/
theorem selected_congr (h : hdr 0 = type) (h' : hdr' 0 = type)
    (hload : IsNeighbor type → load hdr 0 (size type) = load hdr' 0 (size type)) :
    selected type hdr = selected type hdr' := by
  unfold selected
  by_cases hadvert : type = ndNeighborAdvert
  · subst hadvert
    exact congrArg (Pdu.neighborAdvertisement _) (Subtype.ext (hload (.inr rfl)))
  by_cases hsolicit : type = ndNeighborSolicit
  · subst hsolicit
    exact congrArg (Pdu.neighborSolicitation _) (Subtype.ext (hload (.inl rfl)))
  rw [if_neg hadvert, if_neg hsolicit]
  split_ifs
  · rfl
  · rfl
  · rw [pduFactory, pduFactory, h, h']

end Redx.ICMPv6
