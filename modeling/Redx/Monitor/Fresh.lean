import Redx.Monitor.Slots

/-!
# Entries in slots that were used before

Between them `invalidate` and `intern` set some fields of a slot anew. What they leave is what was
assigned last: the interface and the two times of a peer outlive every occupant, and the other
fields keep what a pointer has set in the slot while it was invalid.
-/
namespace Redx.Monitor
open Library Entry

def nodesAfter (ops : List (TableOp nodeTableSize UUID NodeOp)) : Table nodeTableSize Node :=
  ops.foldl (nodeEntry.tableStep NodeOp.act) newNodeTable

def peersAfter (ops : List (TableOp neighborTableSize In6Addr PeerOp)) :
    Table neighborTableSize PeerSlot :=
  ops.foldl (peerSlotEntry.tableStep PeerOp.act) newPeerTable

/-- The node that `intern_node` places in a slot that was never used. -/
def Node.fresh (uuid : UUID) : Node := Node.zero.invalidate.setUuid uuid

/-- The peer that `intern_neighbor` places in a slot that was never used. -/
def PeerSlot.fresh (address : In6Addr) : PeerSlot :=
  (PeerSlot.zero.invalidate.setInterfaceName none).setAddress address

namespace SlotOp

/-- What an operation assigns to the partner flag of a node. -/
def nodePartner : SlotOp UUID NodeOp → Option Bool
  | .invalidate => some false
  | .access .makePartner => some true
  | .access .clearPartner => some false
  | _ => none

def node : SlotOp In6Addr PeerOp → Option (Option NodeIndex)
  | .invalidate => some none
  | .access (.node that) => some that
  | _ => none

def partner : SlotOp In6Addr PeerOp → Option Bool
  | .invalidate => some false
  | .access .makePartner => some true
  | _ => none

def reported : SlotOp In6Addr PeerOp → Option Bool
  | .invalidate => some false
  | .access (.reported value) => some value
  | _ => none

def interface : SlotOp In6Addr PeerOp → Option (Bool × UInt8)
  | .access (.setInterface setPrivate setOrdinal) => some (setPrivate, setOrdinal)
  | _ => none

def updated : SlotOp In6Addr PeerOp → Option Timeval
  | .access (.touch now) => some now
  | _ => none

def advertised : SlotOp In6Addr PeerOp → Option Timeval
  | .access (.touchAdvertised now) => some now
  | _ => none

end SlotOp

/-- The fields of a peer that `intern_neighbor` leaves were last assigned, if at all, what they
are in a slot that was never used. -/
@[mk_iff]
structure Blank (history : List (SlotOp In6Addr PeerOp)) : Prop where
  node : (latest SlotOp.node history).getD none = none
  partner : (latest SlotOp.partner history).getD false = false
  reported : (latest SlotOp.reported history).getD false = false
  interface : (latest SlotOp.interface history).getD (false, 0) = (false, 0)
  updated : (latest SlotOp.updated history).getD ⟨0, 0⟩ = ⟨0, 0⟩
  advertised : (latest SlotOp.advertised history).getD ⟨0, 0⟩ = ⟨0, 0⟩

section Histories

/-- What a history makes of a slot that was mapped and invalidated. -/
def peerAfter (history : List (SlotOp In6Addr PeerOp)) : PeerSlot :=
  history.foldl (peerSlotEntry.slotStep PeerOp.act) PeerSlot.zero.invalidate

theorem peerAfter_fields (history : List (SlotOp In6Addr PeerOp)) :
    (peerAfter history).node = (latest SlotOp.node history).getD none ∧
      (peerAfter history).partner = (latest SlotOp.partner history).getD false ∧
      (peerAfter history).reported = (latest SlotOp.reported history).getD false ∧
      ((peerAfter history).isPrivate, (peerAfter history).ordinal) =
        (latest SlotOp.interface history).getD (false, 0) ∧
      (peerAfter history).updated = (latest SlotOp.updated history).getD ⟨0, 0⟩ ∧
      (peerAfter history).advertised = (latest SlotOp.advertised history).getD ⟨0, 0⟩ := by
  refine ⟨get_foldl (fun s : PeerSlot => s.node) (fun s op => ?_) history _,
    get_foldl (fun s : PeerSlot => s.partner) (fun s op => ?_) history _,
    get_foldl (fun s : PeerSlot => s.reported) (fun s op => ?_) history _,
    get_foldl (fun s : PeerSlot => (s.isPrivate, s.ordinal)) (fun s op => ?_) history _,
    get_foldl PeerSlot.updated (fun s op => ?_) history _,
    get_foldl PeerSlot.advertised (fun s op => ?_) history _⟩
  all_goals
    rcases op with a | _ | o
    · rfl
    · rfl
    · cases o <;> rfl

/-- The peer placed in a slot is that of a new slot when the fields left to it are. -/
theorem fill_eq_fresh_iff (slot : PeerSlot) (address : In6Addr) :
    peerSlotEntry.fill slot address = PeerSlot.fresh address ↔
      slot.node = none ∧ slot.partner = false ∧ slot.reported = false ∧
        (slot.isPrivate, slot.ordinal) = (false, 0) ∧ slot.updated = ⟨0, 0⟩ ∧
        slot.advertised = ⟨0, 0⟩ := by
  obtain ⟨⟨node, lladdr, name, valid, partner, reported⟩, ordinal, isPrivate, updated,
    advertised⟩ := slot
  simp only [peerSlotEntry, PeerSlot.fresh, PeerSlot.setAddress, PeerSlot.setInterfaceName,
    PeerSlot.invalidate, PeerSlot.zero, Peer.setAddress, Peer.invalidate, Peer.zero,
    PeerSlot.mk.injEq, Peer.mk.injEq, Prod.mk.injEq]
  tauto

theorem fill_peerAfter_iff (history : List (SlotOp In6Addr PeerOp)) (address : In6Addr) :
    peerSlotEntry.fill (peerAfter history) address = PeerSlot.fresh address ↔ Blank history := by
  obtain ⟨hnode, hpartner, hreported, hinterface, hupdated, hadvertised⟩ := peerAfter_fields history
  rw [fill_eq_fresh_iff, hnode, hpartner, hreported, hinterface, hupdated, hadvertised, blank_iff]

/-- What a history makes of a node slot that was mapped and invalidated. -/
def nodeAfter (history : List (SlotOp UUID NodeOp)) : Node :=
  history.foldl (nodeEntry.slotStep NodeOp.act) Node.zero.invalidate

theorem nodeAfter_partner (history : List (SlotOp UUID NodeOp)) :
    (nodeAfter history).partner = (latest SlotOp.nodePartner history).getD false := by
  refine get_foldl Node.partner (fun s op => ?_) history _
  rcases op with a | _ | o
  · rfl
  · rfl
  · cases o <;> rfl

theorem fill_nodeAfter_iff (history : List (SlotOp UUID NodeOp)) (uuid : UUID) :
    nodeEntry.fill (nodeAfter history) uuid = Node.fresh uuid ↔
      (latest SlotOp.nodePartner history).getD false = false := by
  rw [← nodeAfter_partner]
  simp only [nodeEntry, Node.fresh, Node.setUuid, Node.invalidate, Node.mk.injEq, true_and,
    and_true]

end Histories

/-- A node or peer that is placed in a slot is the one that a slot never used would give exactly
when, in the history of the slot, the last assignment to each field that is left to it, if there
is one, was the value in a new slot. -/
theorem fresh_iff (nodeOps : List (TableOp nodeTableSize UUID NodeOp)) (uuid : UUID) (i : NodeIndex)
    (peerOps : List (TableOp neighborTableSize In6Addr PeerOp)) (address : In6Addr)
    (j : PeerIndex) :
    (nodeEntry.Places (nodesAfter nodeOps) uuid i →
      ((internNode (nodesAfter nodeOps) uuid).2.entries i = Node.fresh uuid ↔
        (latest SlotOp.nodePartner
          (nodeEntry.slotHistory NodeOp.act newNodeTable i nodeOps)).getD false = false)) ∧
    (peerSlotEntry.Places (peersAfter peerOps) address j →
      ((peerSlotEntry.intern (peersAfter peerOps) address).2.entries j = PeerSlot.fresh address ↔
        Blank (peerSlotEntry.slotHistory PeerOp.act newPeerTable j peerOps))) := by
  constructor
  · intro h
    rw [internNode, places_spec h, Function.update_self, nodesAfter, entries_run]
    exact fill_nodeAfter_iff _ uuid
  · intro h
    rw [places_spec h, Function.update_self, peersAfter, entries_run]
    exact fill_peerAfter_iff _ address

section Last

/-- A node is placed in the last slot, made partner, and removed. -/
def parted : List (TableOp nodeTableSize UUID NodeOp) :=
  Entry.reuse ⟨fun _ => 1, fun _ => 0⟩ lastNode .makePartner

/-- A peer is placed in the last slot, its interface is set, and it is removed. -/
def moved : List (TableOp neighborTableSize In6Addr PeerOp) :=
  Entry.reuse (fun _ => 1) lastPeer (.setInterface true 7)

theorem places_parted (uuid : UUID) : nodeEntry.Places (nodesAfter parted) uuid lastNode :=
  places_of_invalid (valid_reuse (fun _ => rfl) rfl rfl rfl) rfl

theorem places_moved (address : In6Addr) :
    peerSlotEntry.Places (peersAfter moved) address lastPeer :=
  places_of_invalid (valid_reuse (fun _ => rfl) rfl rfl rfl) rfl

theorem entries_moved : ((peersAfter moved).entries lastPeer).ordinal = 7 := by
  rw [moved, peersAfter, entries_reuse (fun _ => rfl) rfl rfl rfl, Function.update_self]
  rfl

/-- In the slots used before the next node is as in a new slot, and the next peer is not. -/
theorem fresh_iff_reused :
    (internNode (nodesAfter parted) ⟨fun _ => 2, fun _ => 0⟩).2.entries lastNode =
        Node.fresh ⟨fun _ => 2, fun _ => 0⟩ ∧
      (peerSlotEntry.intern (peersAfter moved) fun _ => 2).2.entries lastPeer ≠
        PeerSlot.fresh fun _ => 2 := by
  have h := fresh_iff parted ⟨fun _ => 2, fun _ => 0⟩ lastNode moved (fun _ => 2) lastPeer
  rw [parted, slotHistory_reuse (fun _ => rfl) rfl rfl rfl] at h
  rw [moved, slotHistory_reuse (fun _ => rfl) rfl rfl rfl] at h
  refine ⟨(h.1 (places_parted _)).mpr rfl, mt (h.2 (places_moved _)).mp fun hblank => ?_⟩
  exact absurd hblank.interface (by decide)

/-- The next peer in the slot has the interface of the one before. -/
theorem moved_not_fresh :
    ¬ ∀ (ops : List (TableOp neighborTableSize In6Addr PeerOp)) (address : In6Addr) (i : PeerIndex),
      peerSlotEntry.Places (peersAfter ops) address i →
        (peerSlotEntry.intern (peersAfter ops) address).2.entries i = PeerSlot.fresh address := by
  intro h
  have hfresh := h moved (fun _ => 2) lastPeer (places_moved _)
  rw [places_spec (places_moved _), Function.update_self] at hfresh
  have hordinal := congrArg PeerSlot.ordinal hfresh
  exact absurd (entries_moved.symm.trans hordinal) (by decide)

end Last

end Redx.Monitor
