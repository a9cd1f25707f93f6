import Redx.ICMPv6.Receive
import Redx.Monitor.LinkLocal
import Redx.Monitor.References
import Mathlib.Data.List.Nodup

/-!
# Neighbor advertisements

`Interface::advertise` sends a message to each peer of the interface whose node is a partner, and
`Monitor::advertise` does this for every interface. An ICMPv6 socket on the other side makes an
object of the message, with the address and the MAC of the interface that it came from.
-/
namespace Redx.Monitor
open Library
open ICMPv6 (Pdu typed ndNeighborAdvert sizeofHeader sizeofAdvert deliveredFor)

def ndNaFlagOverride : UInt8 := 0x20

def ndOptTargetLinkaddr : UInt8 := 2

/-- `NeighborAdvertisement( target, mac )` -/
def neighborAdvertisement (target : In6Addr) (mac : Mac) : Pdu :=
  .neighborAdvertisement (typed ndNeighborAdvert 0)
    ⟨[ndNeighborAdvert, 0, 0, 0, ndNaFlagOverride, 0, 0, 0] ++ List.ofFn target ++
      [ndOptTargetLinkaddr, 1] ++ List.ofFn mac, by simp [sizeofAdvert]⟩

/-- `ICMPv6::Socket`, and the `sin6_scope_id` of its binding. -/
structure IcmpSocket where
  bindCompleted : Bool
  scope : ℕ
  deriving DecidableEq, Repr

/-- `ICMPv6::Socket::bind`, where `binds` is what the system call does. -/
def IcmpSocket.bind (socket : IcmpSocket) (scope : ℕ) (binds : Bool) : Bool × IcmpSocket :=
  if socket.bindCompleted then (true, socket)
  else (binds, ⟨binds, scope⟩)

/-- What goes out through a socket. -/
structure Packet where
  scope : ℕ
  recipient : In6Addr
  message : List UInt8
  deriving DecidableEq

/-- What `advertise` needs of an interface, but for its peers. -/
structure Sender where
  socket : Option IcmpSocket
  index : ℤ
  primaryAddress : In6Addr
  mac : Mac

/-- What the network does: whether an interface can bind its socket, and send to an address. -/
structure Network where
  binds : Bool
  sends : In6Addr → Bool

/-- One turn of the loop in `Interface::advertise`. -/
def advertiseTo (nodes : NodeIndex → Node) (socket : IcmpSocket) (na : Pdu)
    (sends : In6Addr → Bool) (sent : List Packet) (peer : Peer) : List Packet :=
  if peer.valid = false then sent
  else
    match peer.node with
    | none => sent
    | some i =>
      if (nodes i).partner = false then sent
      else if sends peer.lladdr then sent ++ [⟨socket.scope, peer.lladdr, na.send⟩]
      else sent

/-- `Interface::advertise`: its result, what has gone out and the socket that it leaves. -/
def Interface.advertise (interface : Interface) (nodes : NodeIndex → Node) (sender : Sender)
    (network : Network) : Bool × List Packet × Option IcmpSocket :=
  match sender.socket with
  | none => (false, [], none)
  | some socket =>
    let (bound, socket) := socket.bind (sender.index % 2 ^ 32).toNat network.binds
    if bound = false then (false, [], some socket)
    else
      let na := neighborAdvertisement sender.primaryAddress sender.mac
      let sent := match interface.neighbors with
        | none => []
        | some peers => (List.finRange neighborTableSize).foldl
            (fun sent j => advertiseTo nodes socket na network.sends sent (peers j)) []
      (true, sent, some socket)

/-- The map from an index to an interface, or to NULL, in its order. -/
structure Senders where
  entries : List (ℤ × Option Sender)
  sorted : (entries.map Prod.fst).Pairwise (· < ·)

/-- `Monitor::advertise`: what has gone out, with the interface that it went out of. -/
def State.advertise (s : State) (senders : Senders) (network : ℤ → Network) :
    List (ℤ × Packet) :=
  senders.entries.flatMap fun (x, sender) =>
    match sender with
    | none => []
    | some sender =>
      ((s.interfaces x).advertise s.nodes.entries sender (network x)).2.1.map (x, ·)

/-- The address is that of a valid peer, and the node that this was given is a partner. -/
def State.Partnered (s : State) (x : ℤ) (address : In6Addr) : Prop :=
  ∃ j i, (s.peer x j).valid = true ∧ (s.peer x j).lladdr = address ∧ (s.peer x j).node ≠ none ∧
    (s.node i).isPartner = true ∧ (s.node i).uuid.data = s.given x j

/-- The interface has a socket, which is bound or can be. -/
def Sender.Speaks (sender : Sender) (network : Network) : Prop :=
  ∃ socket, sender.socket = some socket ∧ (socket.bindCompleted = true ∨ network.binds = true)

/-- The message as the kernel sends it, with the checksum filled in. -/
def checksummed (message : List UInt8) (checksum : UInt8 × UInt8) : List UInt8 :=
  (message.set 2 checksum.1).set 3 checksum.2

/-- The object has the address and the MAC of the sender, as its target and its option. -/
def Announces (p : Pdu) (sender : Sender) : Prop :=
  p.target = some (List.ofFn sender.primaryAddress) ∧
    p.message.drop (sizeofHeader + 16) =
      [ndOptTargetLinkaddr, 1] ++ List.ofFn sender.mac

variable {nodes : NodeIndex → Node} {s t : State} {e : Op} {x : ℤ} {address : In6Addr}

/-- The peers that the loop sends to. -/
def addressed (nodes : NodeIndex → Node) (sends : In6Addr → Bool) (peer : Peer) : Bool :=
  peer.valid && peer.node.any (fun i => (nodes i).partner) && sends peer.lladdr

theorem foldl_advertiseTo (socket : IcmpSocket) (na : Pdu) (sends : In6Addr → Bool)
    (peers : PeerIndex → Peer) (js : List PeerIndex) (sent : List Packet) :
    js.foldl (fun sent j => advertiseTo nodes socket na sends sent (peers j)) sent =
      sent ++ (js.filter fun j => addressed nodes sends (peers j)).map
        fun j => ⟨socket.scope, (peers j).lladdr, na.send⟩ := by
  induction js generalizing sent with
  | nil => simp
  | cons j js ih =>
    rw [List.foldl_cons, ih]
    cases hv : (peers j).valid with
    | false => simp [advertiseTo, addressed, hv]
    | true =>
      cases hn : (peers j).node with
      | none => simp [advertiseTo, addressed, hv, hn]
      | some i =>
        cases hp : (nodes i).partner with
        | false => simp [advertiseTo, addressed, hv, hn, hp]
        | true =>
          cases hs : sends (peers j).lladdr <;> simp [advertiseTo, addressed, hv, hn, hp, hs]

/-- What goes out of an interface that can send. -/
theorem advertise_sent (nodes : NodeIndex → Node) (interface : Interface) {sender : Sender}
    {network : Network} (h : sender.Speaks network) :
    ∃ scope, (interface.advertise nodes sender network).2.1 =
      ((List.finRange neighborTableSize).filter fun j =>
          addressed nodes network.sends (interface.peers j)).map fun j =>
        ⟨scope, (interface.peers j).lladdr,
          (neighborAdvertisement sender.primaryAddress sender.mac).send⟩ := by
  obtain ⟨socket, hsocket, hbound⟩ := h
  have hbind : (socket.bind (sender.index % 2 ^ 32).toNat network.binds).1 = true := by
    unfold IcmpSocket.bind
    split
    · rfl
    · rename_i hnot
      exact hbound.resolve_left hnot
  refine ⟨(socket.bind (sender.index % 2 ^ 32).toNat network.binds).2.scope, ?_⟩
  rw [Interface.advertise, hsocket]
  dsimp only
  rw [hbind, if_neg (by decide)]
  cases hn : interface.neighbors with
  | none =>
    have hnone : ((List.finRange neighborTableSize).filter fun j =>
        addressed nodes network.sends (interface.peers j)) = [] := by
      refine List.filter_eq_nil_iff.mpr fun j _ => ?_
      rw [Interface.peers, hn]
      exact Bool.false_ne_true
    rw [hnone]
    rfl
  | some peers =>
    have hpeers : interface.peers = peers := by rw [Interface.peers, hn, Option.getD_some]
    dsimp only
    rw [foldl_advertiseTo, hpeers, List.nil_append]

/-- Nothing goes out of another one. -/
theorem advertise_silent (interface : Interface) {sender : Sender} {network : Network}
    (h : ¬ sender.Speaks network) : (interface.advertise nodes sender network).2.1 = [] := by
  rw [Interface.advertise]
  cases hsocket : sender.socket with
  | none => rfl
  | some socket =>
    have hnot : ¬ (socket.bindCompleted = true ∨ network.binds = true) :=
      fun hbound => h ⟨socket, hsocket, hbound⟩
    rw [not_or, Bool.not_eq_true, Bool.not_eq_true] at hnot
    dsimp only
    rw [IcmpSocket.bind, hnot.1, hnot.2]
    rfl

theorem mem_advertise_interface {interface : Interface} {sender : Sender} {network : Network}
    {p : Packet} (hp : p ∈ (interface.advertise nodes sender network).2.1) :
    sender.Speaks network ∧
      (∃ j, addressed nodes network.sends (interface.peers j) = true ∧
        (interface.peers j).lladdr = p.recipient) ∧
      p.message = (neighborAdvertisement sender.primaryAddress sender.mac).send := by
  by_cases h : sender.Speaks network
  · obtain ⟨scope, hsent⟩ := advertise_sent nodes interface h
    rw [hsent] at hp
    obtain ⟨j, hj, rfl⟩ := List.mem_map.mp hp
    exact ⟨h, ⟨j, (List.mem_filter.mp hj).2, rfl⟩, rfl⟩
  · rw [advertise_silent interface h] at hp
    cases hp

section Distinct

theorem Entry.Unique.congr {n : ℕ} {σ α κ : Type} {entry : Entry σ α κ} {f f' : Fin n → σ}
    (h : entry.Unique f) (hvalid : ∀ i, entry.valid (f' i) = entry.valid (f i))
    (hkey : ∀ i, entry.key (f' i) = entry.key (f i)) : entry.Unique f' := by
  intro i j hi hj hij
  rw [hvalid] at hi hj
  rw [hkey, hkey] at hij
  exact h i j hi hj hij

/-- No two valid nodes have one UUID, and no two valid peers of an interface one address. -/
structure State.Distinct (s : State) : Prop where
  nodes : nodeEntry.Unique s.nodes.entries
  peers : ∀ x, peerEntry.Unique (s.interfaces x).peers

theorem unique_makePartner {f : NodeIndex → Node} (h : nodeEntry.Unique f) (i : NodeIndex) :
    nodeEntry.Unique (Function.update f i (f i).makePartner) := by
  refine h.congr (fun j => ?_) fun j => ?_
  all_goals
    by_cases hij : j = i
    · subst hij
      rw [Function.update_self]
      rfl
    · rw [Function.update_of_ne hij]

theorem unique_clearPartners {t : Table nodeTableSize Node} (h : nodeEntry.Unique t.entries) :
    nodeEntry.Unique (clearPartners t).entries := by
  refine h.congr (fun i => ?_) fun i => ?_
  all_goals
    simp only [clearPartners]
    split <;> rfl

/-- A change to the peers of one interface. -/
theorem State.Distinct.setInterface (h : s.Distinct) {interface : Interface}
    (hpeers : peerEntry.Unique interface.peers) : (s.setInterface x interface).Distinct := by
  refine ⟨h.nodes, fun y => ?_⟩
  rw [State.setInterface]
  dsimp only
  by_cases hxy : y = x
  · subst hxy
    rwa [Function.update_self]
  · rw [Function.update_of_ne hxy]
    exact h.peers y

/-- A peer that stays valid or not, and keeps its address. -/
theorem State.Distinct.setPeer (h : s.Distinct) {j : PeerIndex} {peer : Peer}
    (hvalid : peer.valid = (s.peer x j).valid) (haddress : peer.lladdr = (s.peer x j).lladdr) :
    (s.setPeer x j peer).Distinct := by
  refine h.setInterface ((h.peers x).congr (fun k => ?_) fun k => ?_)
  all_goals
    rw [Interface.peers, Option.getD_some]
    by_cases hjk : k = j
    · subst hjk
      rw [Function.update_self]
      assumption
    · rw [Function.update_of_ne hjk]

theorem Step.distinct (h : s.Distinct) (hs : Step s e t) : t.Distinct := by
  cases hs with
  | loadCache hl =>
    refine ⟨?_, h.peers⟩
    rcases loadCache_spec hl with rfl | ⟨uuid, i, f, hspec, heq⟩
    · exact h.nodes
    · rw [heq]
      exact unique_makePartner (hspec.unique (unique_clearPartners h.nodes)) i
  | clearPartners => exact ⟨unique_clearPartners h.nodes, h.peers⟩
  | internNode => exact ⟨(internNode_spec _ _).unique h.nodes, h.peers⟩
  | removeNode => exact ⟨h.nodes.remove, h.peers⟩
  | internNeighbor =>
    exact h.setInterface ((Interface.internNeighbor_spec _ _).unique (h.peers _))
  | removeNeighbor =>
    refine h.setInterface ?_
    rw [Interface.removeNeighbor_spec]
    exact (h.peers _).remove
  | makePartner => exact h.setPeer rfl rfl
  | @setNode x j i =>
    have hpeer : (s.setPeer x j ((s.peer x j).setNode s.nodes.entries i).1).Distinct :=
      h.setPeer rfl rfl
    refine ⟨?_, hpeer.peers⟩
    dsimp only
    rw [Peer.setNode]
    dsimp only
    split
    · exact unique_makePartner h.nodes i
    · exact h.nodes

theorem distinct_of_run {h : List (State × Op)} (hr : Run Step .initial h s) : s.Distinct :=
  hr.invariant ⟨fun _ _ hi => Bool.noConfusion hi, fun _ _ _ hi => Bool.noConfusion hi⟩
    fun _ _ _ h hs => hs.distinct h

end Distinct

/-- With good references, the peers that the loop sends to are those whose node, by the UUID that
it had when they were given it, is a partner. -/
theorem addressed_iff (hdistinct : s.Distinct) (hintact : s.Intact) (sends : In6Addr → Bool) :
    (∃ j, addressed s.nodes.entries sends (s.peer x j) = true ∧ (s.peer x j).lladdr = address) ↔
      s.Partnered x address ∧ sends address = true := by
  simp only [addressed, Bool.and_eq_true, Option.any_eq_true]
  constructor
  · rintro ⟨j, ⟨⟨hvalid, i, hnode, hpartner⟩, hsends⟩, rfl⟩
    obtain ⟨hvalid', hgiven⟩ := hintact x j hvalid i hnode
    refine ⟨⟨j, i, hvalid, rfl, by simp [hnode], ?_, hgiven⟩, hsends⟩
    exact Bool.and_eq_true_iff.mpr ⟨hvalid', hpartner⟩
  · rintro ⟨⟨j, i, hvalid, rfl, hsome, hpartner, hgiven⟩, hsends⟩
    obtain ⟨i', hnode⟩ := Option.ne_none_iff_exists'.mp hsome
    obtain ⟨hvalid', hgiven'⟩ := hintact x j hvalid i' hnode
    obtain ⟨hi, hpartner⟩ := Bool.and_eq_true_iff.mp hpartner
    obtain rfl : i = i' := hdistinct.nodes i i' hi hvalid' (hgiven.trans hgiven'.symm)
    exact ⟨j, ⟨⟨hvalid, i, hnode, hpartner⟩, hsends⟩, rfl⟩

/-- The socket that receives the message delivers an advertisement of the sender. -/
theorem announced (sender : Sender) (checksum : UInt8 × UInt8) (buffer : ℕ → UInt8)
    (earlier : List (List UInt8)) : ∃ q, deliveredFor buffer earlier
      (checksummed (neighborAdvertisement sender.primaryAddress sender.mac).send checksum) =
        some q ∧ Announces q sender := by
  have hmessage : checksummed (neighborAdvertisement sender.primaryAddress sender.mac).send
      checksum = [ndNeighborAdvert, 0, checksum.1, checksum.2, ndNaFlagOverride, 0, 0, 0] ++
        List.ofFn sender.primaryAddress ++ [ndOptTargetLinkaddr, 1] ++ List.ofFn sender.mac := rfl
  have hlen : ([ndNeighborAdvert, 0, checksum.1, checksum.2, ndNaFlagOverride, 0, 0, 0] ++
      List.ofFn sender.primaryAddress ++ [ndOptTargetLinkaddr, 1] ++
        List.ofFn sender.mac).length = sizeofAdvert := by
    simp [sizeofAdvert]
  rw [hmessage, ICMPv6.deliveredFor_eq buffer earlier (by simp)]
  refine ⟨_, rfl, ?_⟩
  generalize earlier.foldl ICMPv6.recvfrom buffer = before
  have hload : load (ICMPv6.recvfrom before _) 0 sizeofAdvert = _ :=
    ICMPv6.load_recvfrom hlen.ge (by decide)
  rw [List.take_of_length_le hlen.le] at hload
  constructor
  · change some ((((load _ 0 sizeofAdvert)).drop sizeofHeader).take 16) = _
    rw [hload]
    simp [sizeofHeader]
  · change (load _ 0 sizeofAdvert).drop (sizeofHeader + 16) = _
    rw [hload]
    simp [sizeofHeader]

/-- What goes out of an interface, when there is an entry for it. -/
theorem mem_advertise {senders : Senders} {network : ℤ → Network} {p : Packet} :
    (x, p) ∈ s.advertise senders network ↔ ∃ sender, (x, some sender) ∈ senders.entries ∧
      p ∈ ((s.interfaces x).advertise s.nodes.entries sender (network x)).2.1 := by
  rw [State.advertise, List.mem_flatMap]
  constructor
  · rintro ⟨⟨y, sender⟩, hmem, hp⟩
    cases sender with
    | none => cases hp
    | some sender =>
      obtain ⟨p', hp, heq⟩ := List.mem_map.mp hp
      obtain ⟨rfl, rfl⟩ := Prod.mk.inj heq
      exact ⟨sender, hmem, by simpa using hp⟩
  · rintro ⟨sender, hmem, hp⟩
    exact ⟨(x, some sender), hmem, List.mem_map_of_mem hp⟩

/-- No address gets two messages from one interface. -/
theorem nodup_recipients (hdistinct : s.Distinct) (sender : Sender) (network : Network) :
    ((((s.interfaces x).advertise s.nodes.entries sender network).2.1).map
      Packet.recipient).Nodup := by
  by_cases h : sender.Speaks network
  · obtain ⟨scope, hsent⟩ := advertise_sent s.nodes.entries (s.interfaces x) h
    rw [hsent, List.map_map]
    refine List.Nodup.map_on (fun i hi j hj hij => ?_) ((List.nodup_finRange _).filter _)
    have hvalid (k : PeerIndex)
        (hk : k ∈ (List.finRange neighborTableSize).filter fun j =>
          addressed s.nodes.entries network.sends ((s.interfaces x).peers j)) :
        ((s.interfaces x).peers k).valid = true := by
      have hk := (List.mem_filter.mp hk).2
      simp only [addressed, Bool.and_eq_true] at hk
      exact hk.1.1
    exact hdistinct.peers x i j (hvalid i hi) (hvalid j hj) hij
  · rw [advertise_silent _ h]
    exact List.nodup_nil

/-- No address gets two messages from one interface in a round on all of them. -/
theorem nodup_advertise (hdistinct : s.Distinct) (senders : Senders) (network : ℤ → Network) :
    ((s.advertise senders network).map fun p => (p.1, p.2.recipient)).Nodup := by
  obtain ⟨entries, sorted⟩ := senders
  rw [State.advertise]
  dsimp only
  induction entries with
  | nil => exact List.nodup_nil
  | cons entry entries ih =>
    obtain ⟨y, sender⟩ := entry
    rw [List.map_cons, List.pairwise_cons] at sorted
    rw [List.flatMap_cons, List.map_append]
    refine List.Nodup.append ?_ (ih sorted.2) ?_
    · cases sender with
      | none => exact List.nodup_nil
      | some sender =>
        have hnodup := nodup_recipients (x := y) hdistinct sender (network y)
        rw [List.map_map]
        refine List.Nodup.of_map Prod.snd ?_
        rwa [List.map_map]
    · intro q hq hq'
      obtain ⟨p, hp, rfl⟩ := List.mem_map.mp hq
      obtain ⟨p', hp', heq⟩ := List.mem_map.mp hq'
      have hy : p.1 = y := by
        cases sender with
        | none => cases hp
        | some sender =>
          obtain ⟨_, _, rfl⟩ := List.mem_map.mp hp
          rfl
      have hmem : p'.1 ∈ entries.map Prod.fst := by
        obtain ⟨⟨z, sender'⟩, hz, hp'⟩ := List.mem_flatMap.mp hp'
        cases sender' with
        | none => cases hp'
        | some sender' =>
          obtain ⟨_, _, rfl⟩ := List.mem_map.mp hp'
          exact List.mem_map_of_mem hz
      have hlt := sorted.1 _ hmem
      rw [congrArg Prod.fst heq, hy] at hlt
      exact lt_irrefl _ hlt

/-- In a run that leaves no stale reference, a round of advertisements reaches, on the interfaces
that can send, each address whose node is a partner, once, and no other address; and who receives
one learns the address and the MAC of the interface. -/
theorem advertised_iff {h : List (State × Op)} (hr : Run Step .initial h s)
    (hm : Meets LeavesNoStale h) (senders : Senders) (network : ℤ → Network) :
    ((s.advertise senders network).map fun p => (p.1, p.2.recipient)).Nodup ∧
    (∀ x address, (∃ p, (x, p) ∈ s.advertise senders network ∧ p.recipient = address) ↔
      (∃ sender, (x, some sender) ∈ senders.entries ∧ sender.Speaks (network x)) ∧
        s.Partnered x address ∧ (network x).sends address = true) ∧
    ∀ x p, (x, p) ∈ s.advertise senders network →
      ∃ sender, (x, some sender) ∈ senders.entries ∧ ∀ buffer earlier checksum,
        ∃ q, deliveredFor buffer earlier (checksummed p.message checksum) = some q ∧
          Announces q sender := by
  have hdistinct := distinct_of_run hr
  have hintact : s.Intact :=
    (hr.always (fun _ _ hv => Bool.noConfusion hv)
      (fun _ _ _ hp hc hs => (hs.intact_iff hp).mpr hc) hm).2
  refine ⟨nodup_advertise hdistinct senders network, fun x address => ?_, fun x p hp => ?_⟩
  · rw [← addressed_iff hdistinct hintact]
    constructor
    · rintro ⟨p, hp, rfl⟩
      obtain ⟨sender, hmem, hp⟩ := mem_advertise.mp hp
      obtain ⟨hspeaks, haddressed, -⟩ := mem_advertise_interface hp
      exact ⟨⟨sender, hmem, hspeaks⟩, haddressed⟩
    · rintro ⟨⟨sender, hmem, hspeaks⟩, j, hj, rfl⟩
      obtain ⟨scope, hsent⟩ := advertise_sent s.nodes.entries (s.interfaces x) hspeaks
      have hp : ⟨scope, (s.peer x j).lladdr,
          (neighborAdvertisement sender.primaryAddress sender.mac).send⟩ ∈
            ((s.interfaces x).advertise s.nodes.entries sender (network x)).2.1 := by
        rw [hsent]
        exact List.mem_map_of_mem (List.mem_filter.mpr ⟨List.mem_finRange j, hj⟩)
      exact ⟨_, mem_advertise.mpr ⟨sender, hmem, hp⟩, rfl⟩
  · obtain ⟨sender, hmem, hp⟩ := mem_advertise.mp hp
    refine ⟨sender, hmem, fun buffer earlier checksum => ?_⟩
    rw [(mem_advertise_interface hp).2.2]
    exact announced sender checksum buffer earlier

/-- One interface, with a socket that is bound. -/
def oneSender : Senders where
  entries := [(0, some ⟨some ⟨true, 0⟩, 0, fun _ => 0, fun _ => 0⟩)]
  sorted := List.pairwise_singleton ..

/-- A peer that is a partner is given its node, and gets an advertisement. -/
theorem advertised_iff_partner : ∃ h s, Run Step .initial h s ∧ ∃ p,
    (0, p) ∈ s.advertise oneSender (fun _ => ⟨false, fun _ => true⟩) ∧
      p.recipient = fun _ => 1 := by
  refine ⟨_, _, .next (.next (.next (.next .start
    (@Step.internNode _ (.ofData fun _ => 1))) (@Step.internNeighbor _ 0 fun _ => 1))
    (@Step.makePartner _ 0 ⟨4095, by decide⟩ nofun))
    (@Step.setNode _ 0 ⟨4095, by decide⟩ ⟨4095, by decide⟩ nofun (by decide +kernel)), ?_⟩
  refine ((advertised_iff (.next (.next (.next (.next .start
    (@Step.internNode _ (.ofData fun _ => 1))) (@Step.internNeighbor _ 0 fun _ => 1))
    (@Step.makePartner _ 0 ⟨4095, by decide⟩ nofun))
    (@Step.setNode _ 0 ⟨4095, by decide⟩ ⟨4095, by decide⟩ nofun (by decide +kernel))) ?_
    oneSender _).2.1 0 _).mpr ⟨⟨_, List.mem_singleton_self _, _, rfl, .inl rfl⟩, ?_, rfl⟩
  · simp only [Meets.append_singleton]
    exact ⟨⟨⟨⟨nofun, trivial⟩, fun _ _ _ _ hi => by cases hi⟩, trivial⟩, trivial⟩
  · exact ⟨⟨4095, by decide⟩, ⟨4095, by decide⟩, by decide +kernel, by decide +kernel,
      by decide +kernel, by decide +kernel, by decide +kernel⟩

end Redx.Monitor
