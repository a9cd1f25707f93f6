import Redx.Library.Run
import Redx.Monitor.Map

/-!
# The monitor as a whole

One node table and a neighbour table for each interface, with the operations of the monitor that
move the partner flag and the references from peers to nodes.
-/
namespace Redx.Monitor
open Library

abbrev NodeIndex := Fin nodeTableSize
abbrev PeerIndex := Fin neighborTableSize

/-- White space for `fscanf`. -/
def isspace (c : UInt8) : Bool := c = 32 || (9 ≤ c && c ≤ 13)

/-- `fscanf("%s\n")` into an eighty byte buffer: without a token the buffer stays as it is, and a
token that does not fit is written past its end. -/
def scanToken (contents : List UInt8) (buffer : Fin 80 → UInt8) : Option (Fin 80 → UInt8) :=
  let token := (contents.dropWhile isspace).takeWhile fun c => !isspace c
  if token = [] then some buffer
  else if 80 ≤ token.length then none
  else some fun i => if i < token.length then token.getD i 0 else if i = token.length then 0
    else buffer i

def Node.isPartner (node : Node) : Bool := node.valid && node.partner

/-- What `ClearNodePartner` does in each valid entry. -/
def clearPartners (t : Table nodeTableSize Node) : Table nodeTableSize Node :=
  { t with entries := fun i =>
      if (t.entries i).isPartner then (t.entries i).clearPartner else t.entries i }

/-- `load_cache` with the file's contents, if it can be opened, and what the stack held in the
buffer. There is no result when the token overruns the buffer or the node is NULL. -/
def loadCache (t : Table nodeTableSize Node) (file : Option (List UInt8))
    (buffer : Fin 80 → UInt8) : Option (Table nodeTableSize Node) :=
  match file with
  | none => some t
  | some contents =>
    match scanToken contents buffer with
    | none => none
    | some buffer =>
      match internNode (clearPartners t) (.ofString fun i => buffer (i.castLE (by decide))) with
      | (some i, t) =>
        some { t with entries := Function.update t.entries i (t.entries i).makePartner }
      | (none, _) => none

/-- Without a file nothing changes; otherwise, after the partners are cleared, one node is
interned and made a partner. -/
theorem loadCache_spec {t t' : Table nodeTableSize Node} {file : Option (List UInt8)}
    {buffer : Fin 80 → UInt8} (h : loadCache t file buffer = some t') :
    t' = t ∨ ∃ uuid i f, nodeEntry.Interns (clearPartners t).entries uuid (some i) f ∧
      t'.entries = Function.update f i (f i).makePartner := by
  cases file with
  | none => exact .inl (Option.some.inj h).symm
  | some contents =>
    rw [loadCache] at h
    split at h
    · cases h
    · rename_i buffer' _
      split at h
      · rename_i i t₁ hr
        obtain rfl := Option.some.inj h
        have hspec := internNode_spec (clearPartners t)
          (.ofString fun i => buffer' (i.castLE (by decide)))
        rw [hr] at hspec
        exact .inr ⟨_, i, t₁.entries, hspec, rfl⟩
      · cases h

/-- One turn of the loop in `save_cache`, on what has been written and the partners counted. -/
def saveEntry (saved : List UInt8 × ℕ) (node : Node) : List UInt8 × ℕ :=
  if node.isPartner then
    (if saved.2 = 0 then saved.1 ++ node.uuid.text ++ [10] else saved.1, saved.2 + 1)
  else saved

/-- The file that `save_cache` writes and the number of partners that it counts. -/
def saveCache (t : Table nodeTableSize Node) : List UInt8 × ℕ :=
  (List.finRange nodeTableSize).foldl (fun saved i => saveEntry saved (t.entries i)) ([], 0)

/-- `save_cache` logs "%%BUG multiple partner entries in node table". -/
def reportsBug (t : Table nodeTableSize Node) : Prop := 1 < (saveCache t).2

/-- `Peer::node(Node *)` -/
def Peer.setNode (peer : Peer) (nodes : NodeIndex → Node) (that : NodeIndex) :
    Peer × (NodeIndex → Node) :=
  ({ peer with node := some that },
    if peer.partner = true ∧ (nodes that).partner = false then
      Function.update nodes that (nodes that).makePartner
    else nodes)

/-- The tables of a monitor. `given` remembers, for each peer, the bytes of the UUID that its
node had when the peer was given it. -/
structure State where
  nodes : Table nodeTableSize Node
  interfaces : ℤ → Interface
  given : ℤ → PeerIndex → Fin 16 → UInt8

def State.initial : State where
  nodes := newNodeTable
  interfaces := fun _ => newInterface
  given := fun _ _ _ => 0

namespace State

def peer (s : State) (x : ℤ) (j : PeerIndex) : Peer := (s.interfaces x).peers j

def node (s : State) (i : NodeIndex) : Node := s.nodes.entries i

def setInterface (s : State) (x : ℤ) (interface : Interface) : State :=
  { s with interfaces := Function.update s.interfaces x interface }

/-- A store to a peer of an interface whose table is mapped. -/
def setPeer (s : State) (x : ℤ) (j : PeerIndex) (peer : Peer) : State :=
  s.setInterface x { s.interfaces x with
    neighbors := some (Function.update (s.interfaces x).peers j peer) }

@[simp] theorem setInterface_peer_self (s : State) (x : ℤ) (interface : Interface) (j : PeerIndex) :
    (s.setInterface x interface).peer x j = interface.peers j := by
  simp [setInterface, peer]

theorem setInterface_peer_of_ne (s : State) {x y : ℤ} (h : y ≠ x) (interface : Interface)
    (j : PeerIndex) : (s.setInterface x interface).peer y j = s.peer y j := by
  simp [setInterface, peer, h]

@[simp] theorem setPeer_peer_self (s : State) (x : ℤ) (j : PeerIndex) (peer : Peer) :
    (s.setPeer x j peer).peer x j = peer := by
  rw [setPeer, setInterface_peer_self, Interface.peers, Option.getD_some, Function.update_self]

theorem setPeer_peer_of_ne (s : State) {x y : ℤ} {j k : PeerIndex} (h : y = x → k ≠ j)
    (peer : Peer) : (s.setPeer x j peer).peer y k = s.peer y k := by
  by_cases hxy : y = x
  · subst hxy
    rw [setPeer, setInterface_peer_self, Interface.peers, Option.getD_some,
      Function.update_of_ne (h rfl)]
    rfl
  · exact setInterface_peer_of_ne s hxy _ _

/-- Interning a peer leaves all nodes and partner flags of peers as they were. -/
theorem internNeighbor_peer (s : State) (x y : ℤ) (address : In6Addr) (j : PeerIndex) :
    let t := s.setInterface x ((s.interfaces x).internNeighbor address).2
    (t.peer y j).node = (s.peer y j).node ∧ (t.peer y j).partner = (s.peer y j).partner := by
  by_cases hxy : y = x
  · subst hxy
    dsimp only
    rw [setInterface_peer_self]
    exact (s.interfaces y).internNeighbor_peer address j
  · dsimp only
    rw [setInterface_peer_of_ne s hxy]
    exact ⟨rfl, rfl⟩

end State

inductive Op where
  | loadCache (file : Option (List UInt8)) (buffer : Fin 80 → UInt8)
  | clearPartners
  | internNode (uuid : UUID)
  | removeNode (uuid : UUID)
  | internNeighbor (x : ℤ) (address : In6Addr)
  | removeNeighbor (x : ℤ) (address : In6Addr)
  | makePartner (x : ℤ) (j : PeerIndex)
  | setNode (x : ℤ) (j : PeerIndex) (i : NodeIndex)

/-- The operations that return. Those on a peer need its table; the node that a peer is given is
valid. -/
inductive Step : State → Op → State → Prop
  | loadCache {s : State} {file : Option (List UInt8)} {buffer : Fin 80 → UInt8}
      {t : Table nodeTableSize Node} : loadCache s.nodes file buffer = some t →
      Step s (.loadCache file buffer) { s with nodes := t }
  | clearPartners {s : State} :
      Step s .clearPartners { s with nodes := clearPartners s.nodes }
  | internNode {s : State} {uuid : UUID} :
      Step s (.internNode uuid) { s with nodes := (internNode s.nodes uuid).2 }
  | removeNode {s : State} {uuid : UUID} :
      Step s (.removeNode uuid) { s with nodes := removeNode s.nodes uuid }
  | internNeighbor {s : State} {x : ℤ} {address : In6Addr} :
      Step s (.internNeighbor x address)
        (s.setInterface x ((s.interfaces x).internNeighbor address).2)
  | removeNeighbor {s : State} {x : ℤ} {address : In6Addr} :
      Step s (.removeNeighbor x address)
        (s.setInterface x ((s.interfaces x).removeNeighbor address))
  | makePartner {s : State} {x : ℤ} {j : PeerIndex} : (s.interfaces x).neighbors ≠ none →
      Step s (.makePartner x j) (s.setPeer x j (s.peer x j).makePartner)
  | setNode {s : State} {x : ℤ} {j : PeerIndex} {i : NodeIndex} :
      (s.interfaces x).neighbors ≠ none → (s.node i).valid = true →
      Step s (.setNode x j i)
        { s.setPeer x j ((s.peer x j).setNode s.nodes.entries i).1 with
          nodes := { s.nodes with entries := ((s.peer x j).setNode s.nodes.entries i).2 }
          given := Function.update s.given x
            (Function.update (s.given x) j (s.node i).uuid.data) }

/-- The slots that the first entries interned are given. -/
abbrev lastNode : NodeIndex := ⟨4095, by decide⟩

abbrev lastPeer : PeerIndex := ⟨4095, by decide⟩

namespace State

/-- A node has been interned, and a peer on interface 0. -/
def acquainted : State :=
  let s : State := { initial with nodes := (internNode initial.nodes (.ofData fun _ => 1)).2 }
  s.setInterface 0 ((s.interfaces 0).internNeighbor fun _ => 1).2

theorem acquainted_peer (x : ℤ) (j : PeerIndex) :
    (acquainted.peer x j).node = none ∧ (acquainted.peer x j).partner = false :=
  internNeighbor_peer _ 0 x _ j

/-- Another node is interned. -/
def twoNodes : State :=
  { acquainted with nodes := (Monitor.internNode acquainted.nodes (.ofData fun _ => 2)).2 }

def partnerPeer : State :=
  twoNodes.setPeer 0 lastPeer (twoNodes.peer 0 lastPeer).makePartner

/-- The partner is given the first of the nodes, which becomes a partner with it. -/
def givenNode : State :=
  let r := (partnerPeer.peer 0 lastPeer).setNode partnerPeer.nodes.entries lastNode
  { partnerPeer.setPeer 0 lastPeer r.1 with
    nodes := { partnerPeer.nodes with entries := r.2 }
    given := Function.update partnerPeer.given 0 (Function.update (partnerPeer.given 0)
      lastPeer (partnerPeer.node lastNode).uuid.data) }

def otherRemoved : State :=
  { givenNode with nodes := Monitor.removeNode givenNode.nodes (.ofData fun _ => 2) }

/-- The history of `otherRemoved`. -/
def pairing : List (State × Op) :=
  [(initial, .internNode (.ofData fun _ => 1)),
    ({ initial with nodes := (Monitor.internNode initial.nodes (.ofData fun _ => 1)).2 },
      .internNeighbor 0 fun _ => 1),
    (acquainted, .internNode (.ofData fun _ => 2)), (twoNodes, .makePartner 0 lastPeer),
    (partnerPeer, .setNode 0 lastPeer lastNode),
    (givenNode, .removeNode (.ofData fun _ => 2))]

theorem run_pairing : Run Step initial pairing otherRemoved :=
  .cons .internNode (.cons .internNeighbor (.cons .internNode (.cons (.makePartner nofun)
    (.cons (.setNode nofun (by decide +kernel)) (.cons .removeNode .start)))))

end State

end Redx.Monitor
