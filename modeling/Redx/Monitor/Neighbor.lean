import Redx.Monitor.Table
import Redx.Monitor.UUID

/-!
# Nodes, peers and their tables

The monitor's node table is found by UUID. Each interface has a neighbour table of peers found
by IPv6 address, which is mapped when the first peer is interned. A peer refers to a slot of the
node table.
-/
namespace Redx.Monitor

def nodeTableSize : ℕ := 4096
def neighborTableSize : ℕ := 4096

structure Node where
  uuid : UUID
  ordinal : UInt8
  partner : Bool
  valid : Bool
  deriving DecidableEq

namespace Node

/-- A slot of freshly mapped memory. -/
def zero : Node where
  uuid := ⟨fun _ => 0, fun _ => 0⟩
  ordinal := 0
  partner := false
  valid := false

def setUuid (node : Node) (that : UUID) : Node :=
  { node with uuid := that, ordinal := 255, valid := true }

def invalidate (node : Node) : Node := { node with valid := false, partner := false }

def makePartner (node : Node) : Node := { node with partner := true }

def clearPartner (node : Node) : Node := { node with partner := false }

end Node

/-- `struct in6_addr`. -/
abbrev In6Addr := Fin 16 → UInt8

/-- The pointer to a node is the slot of the node table, if it is not NULL. -/
structure Peer where
  node : Option (Fin nodeTableSize)
  lladdr : In6Addr
  name : Option (List UInt8)
  valid : Bool
  partner : Bool
  reported : Bool
  deriving DecidableEq

namespace Peer

def zero : Peer where
  node := none
  lladdr := fun _ => 0
  name := none
  valid := false
  partner := false
  reported := false

def invalidate (peer : Peer) : Peer :=
  { peer with valid := false, partner := false, reported := false, node := none }

def makePartner (peer : Peer) : Peer := { peer with partner := true }

/-- `set_interface_name(NULL)`. -/
def clearName (peer : Peer) : Peer := { peer with name := none }

def setAddress (peer : Peer) (address : In6Addr) : Peer :=
  { peer with lladdr := address, valid := true }

end Peer

/-- Nodes are told apart by the sixteen bytes of their UUIDs. -/
def nodeEntry : Entry Node UUID (Fin 16 → UInt8) where
  valid := Node.valid
  key node := node.uuid.data
  keyOf uuid := uuid.data
  fill := Node.setUuid
  invalidate := Node.invalidate
  valid_fill _ _ := rfl
  key_fill _ _ := rfl
  valid_invalidate _ := rfl

def peerEntry : Entry Peer In6Addr In6Addr where
  valid := Peer.valid
  key := Peer.lladdr
  keyOf address := address
  fill peer address := peer.clearName.setAddress address
  invalidate := Peer.invalidate
  valid_fill _ _ := rfl
  key_fill _ _ := rfl
  valid_invalidate _ := rfl

/-- The table that the constructor of `Monitor` maps and invalidates. -/
def newNodeTable : Table nodeTableSize Node := ⟨fun _ => Node.zero.invalidate, false, false⟩

def internNode (t : Table nodeTableSize Node) (uuid : UUID) :
    Option (Fin nodeTableSize) × Table nodeTableSize Node :=
  nodeEntry.intern t uuid

theorem internNode_spec (t : Table nodeTableSize Node) (uuid : UUID) :
    nodeEntry.Interns t.entries uuid (internNode t uuid).1 (internNode t uuid).2.entries := by
  rw [internNode]
  exact Entry.intern_spec (e := nodeEntry) t uuid

def findNode (t : Table nodeTableSize Node) (uuid : UUID) : Option (Fin nodeTableSize) :=
  nodeEntry.findLast t.entries uuid

def removeNode (t : Table nodeTableSize Node) (uuid : UUID) : Table nodeTableSize Node :=
  { t with entries := nodeEntry.remove t.entries uuid }

/-- The part of an `Interface` that its neighbour table needs; `none` is the NULL table. -/
structure Interface where
  neighbors : Option (Fin neighborTableSize → Peer)
  warningReported : Bool
  errorReported : Bool

def newInterface : Interface := ⟨none, false, false⟩

namespace Interface

/-- The peers, where a table that is not mapped yet reads as the one that will be. -/
def peers (x : Interface) : Fin neighborTableSize → Peer :=
  x.neighbors.getD fun _ => Peer.zero.invalidate

def internNeighbor (x : Interface) (address : In6Addr) :
    Option (Fin neighborTableSize) × Interface :=
  let r := peerEntry.intern ⟨x.peers, x.warningReported, x.errorReported⟩ address
  (r.1, ⟨some r.2.entries, r.2.warningReported, r.2.errorReported⟩)

def removeNeighbor (x : Interface) (address : In6Addr) : Interface :=
  { x with neighbors := x.neighbors.map fun t => peerEntry.remove t address }

def findNeighbor (x : Interface) (address : In6Addr) : Option (Fin neighborTableSize) :=
  x.neighbors.bind fun t => peerEntry.findFirst t address

end Interface

end Redx.Monitor
