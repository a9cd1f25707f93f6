import Redx.Monitor.Map
import Redx.Monitor.State

/-!
# The two orders of discovering a partner

A peer becomes a partner by `make_partner` and is given its node by `node`. The second of these
makes the node a partner with its peer; the first does not look at the node that the peer has.
-/
namespace Redx.Monitor
open Library

theorem Node.makePartner_eq {node : Node} (h : node.partner = true) : node.makePartner = node := by
  rw [makePartner, ← h]

namespace State

/-- `Peer::make_partner` on a peer of the monitor. -/
def makePartner (s : State) (x : ℤ) (j : PeerIndex) : State :=
  s.setPeer x j (s.peer x j).makePartner

/-- `Peer::node(Node *)` on a peer of the monitor. -/
def giveNode (s : State) (x : ℤ) (j : PeerIndex) (i : NodeIndex) : State :=
  { s.setPeer x j ((s.peer x j).setNode s.nodes.entries i).1 with
    nodes := { s.nodes with entries := ((s.peer x j).setNode s.nodes.entries i).2 }
    given := Function.update s.given x
      (Function.update (s.given x) j (s.node i).uuid.data) }

/-- `Monitor::clear_partners` -/
def clearPartners (s : State) : State := { s with nodes := Monitor.clearPartners s.nodes }

/-- A valid peer that is a partner has no node that is not one. -/
def PartnersAgree (s : State) : Prop := ∀ x j i, (s.peer x j).valid = true →
  (s.peer x j).partner = true → (s.peer x j).node = some i → (s.node i).partner = true

theorem ext_node {s t : State} (hnode : ∀ i, s.node i = t.node i)
    (hwarning : s.nodes.warningReported = t.nodes.warningReported)
    (herror : s.nodes.errorReported = t.nodes.errorReported)
    (hinterfaces : s.interfaces = t.interfaces) (hgiven : s.given = t.given) : s = t := by
  obtain ⟨⟨entries, _, _⟩, _, _⟩ := s
  obtain rfl : entries = t.nodes.entries := funext hnode
  obtain rfl := hwarning
  obtain rfl := herror
  obtain rfl := hinterfaces
  obtain rfl := hgiven
  rfl

theorem setPeer_setPeer (s : State) (x : ℤ) (j : PeerIndex) (p q : Peer) :
    (s.setPeer x j p).setPeer x j q = s.setPeer x j q := by
  simp [setPeer, setInterface, Interface.peers, Function.update_idem]

theorem mapped_of_valid {s : State} {x : ℤ} {j : PeerIndex} (h : (s.peer x j).valid = true) :
    (s.interfaces x).neighbors ≠ none := by
  intro hnone
  rw [peer, Interface.peers, hnone] at h
  cases h

section Order

variable (s : State) (x : ℤ) (j : PeerIndex) (i : NodeIndex)

theorem giveNode_peer_self : (s.giveNode x j i).peer x j = { s.peer x j with node := some i } :=
  s.setPeer_peer_self x j _

/-- Only the node that is given changes, and only when its peer is a partner. -/
theorem giveNode_node (k : NodeIndex) : (s.giveNode x j i).node k =
    if k = i ∧ (s.peer x j).partner = true then (s.node k).makePartner else s.node k := by
  change ((s.peer x j).setNode s.nodes.entries i).2 k = _
  dsimp only [Peer.setNode]
  by_cases hmake : (s.peer x j).partner = true ∧ (s.nodes.entries i).partner = false
  · rw [if_pos hmake]
    by_cases hk : k = i
    · subst hk
      rw [Function.update_self, if_pos ⟨rfl, hmake.1⟩]
      rfl
    · rw [Function.update_of_ne hk, if_neg fun h => hk h.1]
      rfl
  · rw [if_neg hmake]
    by_cases hk : k = i ∧ (s.peer x j).partner = true
    · obtain ⟨rfl, hp⟩ := hk
      have hnode : (s.node k).partner = true := by
        by_contra hn
        exact hmake ⟨hp, by simpa [node] using hn⟩
      rw [if_pos ⟨rfl, hp⟩, Node.makePartner_eq hnode]
      rfl
    · rw [if_neg hk]
      rfl

@[simp] theorem makePartner_node (k : NodeIndex) : (s.makePartner x j).node k = s.node k := rfl

@[simp] theorem makePartner_partner : ((s.makePartner x j).peer x j).partner = true := by
  rw [makePartner, setPeer_peer_self]
  rfl

/-- Both orders store the same peer. -/
theorem makePartner_giveNode_interfaces : ((s.makePartner x j).giveNode x j i).interfaces =
    ((s.giveNode x j i).makePartner x j).interfaces := by
  have hfirst : ((s.makePartner x j).giveNode x j i).interfaces = (s.setPeer x j
      { s.peer x j with node := some i, partner := true }).interfaces := by
    change ((s.makePartner x j).setPeer x j _).interfaces = _
    rw [makePartner, setPeer_setPeer, setPeer_peer_self]
    rfl
  have hsecond : ((s.giveNode x j i).makePartner x j).interfaces = (s.setPeer x j
      { s.peer x j with node := some i, partner := true }).interfaces := by
    rw [makePartner, giveNode_peer_self]
    change ((s.setPeer x j _).setPeer x j _).interfaces = _
    rw [setPeer_setPeer]
    rfl
  rw [hfirst, hsecond]

/-- The orders differ in the node, which only the first of them makes a partner for sure. -/
theorem makePartner_giveNode_comm :
    (s.makePartner x j).giveNode x j i = (s.giveNode x j i).makePartner x j ↔
      (s.peer x j).partner = true ∨ (s.node i).partner = true := by
  have hfirst (k : NodeIndex) : ((s.makePartner x j).giveNode x j i).node k =
      if k = i then (s.node k).makePartner else s.node k := by
    rw [giveNode_node, makePartner_partner]
    simp
  have hsecond (k : NodeIndex) : ((s.giveNode x j i).makePartner x j).node k =
      if k = i ∧ (s.peer x j).partner = true then (s.node k).makePartner else s.node k := by
    rw [makePartner_node, giveNode_node]
  constructor
  · intro heq
    by_contra hnot
    obtain ⟨hp, hn⟩ := not_or.mp hnot
    have hnode := congrArg Node.partner (congrArg (fun t : State => t.node i) heq)
    rw [hfirst, hsecond, if_pos rfl, if_neg fun h => hp h.2] at hnode
    exact hn hnode.symm
  · intro hor
    refine ext_node (fun k => (hfirst k).trans (Eq.trans ?_ (hsecond k).symm)) rfl rfl
      (s.makePartner_giveNode_interfaces x j i) rfl
    by_cases hk : k = i
    · subst hk
      rcases hor with hp | hn
      · simp [hp]
      · simp [Node.makePartner_eq hn]
    · simp [hk]

end Order

theorem setPeer_peer_cases (s : State) (x y : ℤ) (j k : PeerIndex) (p : Peer) :
    (y = x ∧ k = j) ∨ (s.setPeer x j p).peer y k = s.peer y k := by
  by_cases h : y = x → k ≠ j
  · exact .inr (s.setPeer_peer_of_ne h p)
  · exact .inl (by simpa using h)

/-- Marking a valid peer keeps the agreement exactly when its node is a partner already. -/
theorem partnersAgree_makePartner {s : State} {x : ℤ} {j : PeerIndex} (h : s.PartnersAgree)
    (hv : (s.peer x j).valid = true) : (s.makePartner x j).PartnersAgree ↔
      ∀ i, (s.peer x j).node = some i → (s.node i).partner = true := by
  have hself : (s.makePartner x j).peer x j = (s.peer x j).makePartner := s.setPeer_peer_self x j _
  constructor
  · intro hagree i hi
    exact hagree x j i (by rw [hself]; exact hv) (by rw [hself]; rfl) (by rw [hself]; exact hi)
  · intro hnode y k i hvalid hpartner hi
    rcases s.setPeer_peer_cases x y j k (s.peer x j).makePartner with ⟨rfl, rfl⟩ | hsame
    · rw [hself] at hi
      exact hnode i hi
    · rw [makePartner, hsame] at hvalid hpartner hi
      exact h y k i hvalid hpartner hi

/-- Giving a node to a peer keeps the agreement. -/
theorem PartnersAgree.giveNode {s : State} (h : s.PartnersAgree) (x : ℤ) (j : PeerIndex)
    (i : NodeIndex) : (s.giveNode x j i).PartnersAgree := by
  intro y k i' hvalid hpartner hi
  have hkeep : (s.node i').partner = true → ((s.giveNode x j i).node i').partner = true := by
    intro hn
    rw [giveNode_node]
    split
    · rfl
    · exact hn
  rcases s.setPeer_peer_cases x y j k ((s.peer x j).setNode s.nodes.entries i).1
    with ⟨rfl, rfl⟩ | hsame
  · rw [giveNode_peer_self] at hpartner hi
    obtain rfl : i = i' := Option.some.inj hi
    rw [giveNode_node, if_pos ⟨rfl, hpartner⟩]
    rfl
  · have hpeer : (s.giveNode x j i).peer y k = s.peer y k := hsame
    rw [hpeer] at hvalid hpartner hi
    exact hkeep (h y k i' hvalid hpartner hi)

theorem giveNode_valid {s : State} {x : ℤ} {j : PeerIndex} (i : NodeIndex)
    (hv : (s.peer x j).valid = true) : ((s.giveNode x j i).peer x j).valid = true := by
  rw [giveNode_peer_self]
  exact hv

/-- A peer that has its node before it becomes a partner leaves the node behind. -/
theorem not_partnersAgree_of_order {s : State} {x : ℤ} {j : PeerIndex} {i : NodeIndex}
    (h : s.PartnersAgree) (hv : (s.peer x j).valid = true)
    (hpeer : (s.peer x j).partner = false) (hnode : (s.node i).partner = false) :
    ¬ ((s.giveNode x j i).makePartner x j).PartnersAgree := by
  rw [partnersAgree_makePartner (h.giveNode x j i) (giveNode_valid i hv)]
  intro hall
  have hgiven := hall i (by rw [giveNode_peer_self])
  rw [giveNode_node, if_neg (by simp [hpeer]), hnode] at hgiven
  cases hgiven

theorem clearPartners_node (s : State) (i : NodeIndex) : s.clearPartners.node i =
    if (s.node i).isPartner then (s.node i).clearPartner else s.node i := rfl

/-- Clearing the nodes keeps the agreement when no valid partner peer has a valid node. -/
theorem partnersAgree_clearPartners {s : State} (h : s.PartnersAgree) :
    s.clearPartners.PartnersAgree ↔ ∀ x j i, (s.peer x j).valid = true →
      (s.peer x j).partner = true → (s.peer x j).node = some i → (s.node i).valid = false := by
  constructor
  · intro hagree x j i hvalid hpartner hi
    have hafter := hagree x j i hvalid hpartner hi
    have hbefore := h x j i hvalid hpartner hi
    by_contra hv
    rw [Bool.not_eq_false] at hv
    rw [clearPartners_node, if_pos (by simp [Node.isPartner, hv, hbefore])] at hafter
    cases hafter
  · intro hall x j i hvalid hpartner hi
    rw [clearPartners_node, if_neg (by simp [Node.isPartner, hall x j i hvalid hpartner hi])]
    exact h x j i hvalid hpartner hi

end State

/-- The two calls on valid peers and nodes, and `clear_partners`. -/
inductive Discovers : State → Op → State → Prop
  | makePartner {s : State} {x : ℤ} {j : PeerIndex} : (s.peer x j).valid = true →
      Discovers s (.makePartner x j) (s.makePartner x j)
  | setNode {s : State} {x : ℤ} {j : PeerIndex} {i : NodeIndex} : (s.peer x j).valid = true →
      (s.node i).valid = true → Discovers s (.setNode x j i) (s.giveNode x j i)
  | clearPartners {s : State} : Discovers s .clearPartners s.clearPartners

theorem Discovers.step {s t : State} {e : Op} (h : Discovers s e t) : Step s e t := by
  cases h with
  | makePartner hv => exact .makePartner (State.mapped_of_valid hv)
  | setNode hv hn => exact .setNode (State.mapped_of_valid hv) hn
  | clearPartners => exact .clearPartners

/-- No peer becomes a partner while it has a node that is none, and the partners are not cleared
while a valid partner peer has a valid node. -/
def KeepsPartners (s : State) : Op → Prop
  | .makePartner x j => ∀ i, (s.peer x j).node = some i → (s.node i).partner = true
  | .clearPartners => ∀ x j i, (s.peer x j).valid = true → (s.peer x j).partner = true →
      (s.peer x j).node = some i → (s.node i).valid = false
  | _ => True

theorem Discovers.partnersAgree_iff {s t : State} {e : Op} (hp : s.PartnersAgree)
    (h : Discovers s e t) : t.PartnersAgree ↔ KeepsPartners s e := by
  cases h with
  | makePartner hv => exact State.partnersAgree_makePartner hp hv
  | setNode => exact iff_of_true (hp.giveNode _ _ _) trivial
  | clearPartners => exact State.partnersAgree_clearPartners hp

/-- The order of the two calls does not matter exactly when the peer or the node is a partner
already, and a run keeps partner peers on partner nodes exactly when it keeps to
`KeepsPartners`. -/
theorem discovery_iff (s : State) :
    (∀ x j i, (s.peer x j).valid = true → (s.node i).valid = true →
      ((s.makePartner x j).giveNode x j i = (s.giveNode x j i).makePartner x j ↔
        (s.peer x j).partner = true ∨ (s.node i).partner = true)) ∧
    (s.PartnersAgree → ∀ h t, Run Discovers s h t →
      (Always State.PartnersAgree h t ↔ Meets KeepsPartners h)) := by
  refine ⟨fun x j i _ _ => s.makePartner_giveNode_comm x j i, fun hs h t hr => ?_⟩
  exact hr.always_iff_meets (I := fun _ => True) trivial hs (fun _ _ _ _ _ => trivial)
    fun _ _ _ _ hp hstep => hstep.partnersAgree_iff hp

namespace State

theorem acquainted_reachable : Reachable Step initial acquainted :=
  ⟨_, .next (.next .start (@Step.internNode _ (.ofData fun _ => 1)))
    (@Step.internNeighbor _ 0 fun _ => 1)⟩

theorem acquainted_partnersAgree : acquainted.PartnersAgree := by
  intro x j i _ hpartner
  rw [(acquainted_peer x j).2] at hpartner
  cases hpartner

theorem acquainted_valid : (acquainted.peer 0 lastPeer).valid = true := by
  decide +kernel

theorem acquainted_node : (acquainted.node lastNode).valid = true ∧
    (acquainted.node lastNode).partner = false := by
  decide +kernel

end State

/-- A second `make_partner` changes nothing, and a partner's node becomes one. -/
theorem discovery_iff_acquainted :
    let s := State.acquainted
    let t := s.makePartner 0 lastPeer
    (t.makePartner 0 lastPeer).giveNode 0 lastPeer lastNode =
        (t.giveNode 0 lastPeer lastNode).makePartner 0 lastPeer ∧
      Always State.PartnersAgree
        [(s, Op.makePartner 0 lastPeer),
          (t, Op.setNode 0 lastPeer lastNode)]
        (t.giveNode 0 lastPeer lastNode) := by
  intro s t
  have hpeer : (t.peer 0 lastPeer).valid = true ∧
      (t.peer 0 lastPeer).partner = true := by decide +kernel
  have hnode : (t.node lastNode).valid = true := State.acquainted_node.1
  refine ⟨((discovery_iff t).1 0 _ _ hpeer.1 hnode).mpr (.inl hpeer.2), ?_⟩
  refine ((discovery_iff s).2 State.acquainted_partnersAgree _ _
    (.cons (.makePartner State.acquainted_valid) (.cons (.setNode hpeer.1 hnode) .start))).mpr ?_
  simp only [Meets, List.forall_mem_cons, KeepsPartners, true_and]
  refine ⟨fun i hi => ?_, List.forall_mem_nil _⟩
  rw [(State.acquainted_peer _ _).1] at hi
  cases hi

/-- A peer is given its node first and becomes a partner then. -/
theorem node_before_partner : ∃ s x j i, Reachable Step .initial s ∧ s.PartnersAgree ∧
    (s.peer x j).valid = true ∧ (s.node i).valid = true ∧
    (s.makePartner x j).giveNode x j i ≠ (s.giveNode x j i).makePartner x j ∧
    ∃ h t, Run Discovers s h t ∧ ¬ t.PartnersAgree := by
  have hv := State.acquainted_valid
  obtain ⟨hn, hnode⟩ := State.acquainted_node
  have hpeer := (State.acquainted_peer 0 lastPeer).2
  refine ⟨.acquainted, 0, _, _, State.acquainted_reachable, State.acquainted_partnersAgree,
    hv, hn, ?_, _, _,
    .next (.next .start (.setNode hv hn)) (.makePartner (State.giveNode_valid _ hv)),
    State.not_partnersAgree_of_order State.acquainted_partnersAgree hv hpeer hnode⟩
  rw [Ne, State.makePartner_giveNode_comm, hpeer, hnode]
  decide

end Redx.Monitor
