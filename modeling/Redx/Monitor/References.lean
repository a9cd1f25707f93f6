import Redx.Monitor.State
import Redx.Monitor.Map

/-!
# References from peers to nodes

A peer keeps the slot of its node, and `remove_node` does not look for the peers that do. The
references stay good in a run exactly when no node is removed while a valid peer refers to it and
no slot with a stale reference is filled for a new peer.
-/
namespace Redx.Monitor
open Library

variable {f f' : NodeIndex → Node}

/-- Valid nodes stay valid and keep their UUIDs. -/
def Keeps (f f' : NodeIndex → Node) : Prop :=
  ∀ i, (f i).valid = true → (f' i).valid = true ∧ (f' i).uuid = (f i).uuid

theorem Keeps.refl (f : NodeIndex → Node) : Keeps f f := fun _ h => ⟨h, rfl⟩

theorem Keeps.trans {g : NodeIndex → Node} (h : Keeps f f') (h' : Keeps f' g) : Keeps f g := by
  intro i hv
  obtain ⟨h₁, h₂⟩ := h i hv
  obtain ⟨h₃, h₄⟩ := h' i h₁
  exact ⟨h₃, h₄.trans h₂⟩

theorem Keeps.interns {uuid : UUID} {r : Option NodeIndex}
    (h : nodeEntry.Interns f uuid r f') : Keeps f f' := by
  intro i hv
  rw [h.frame hv]
  exact ⟨hv, rfl⟩

theorem Keeps.makePartner (f : NodeIndex → Node) (i : NodeIndex) :
    Keeps f (Function.update f i (f i).makePartner) := by
  intro j hv
  by_cases hij : j = i
  · subst hij
    rw [Function.update_self]
    exact ⟨hv, rfl⟩
  · rw [Function.update_of_ne hij]
    exact ⟨hv, rfl⟩

theorem Keeps.clearPartners (t : Table nodeTableSize Node) :
    Keeps t.entries (clearPartners t).entries := by
  intro i hv
  simp only [Monitor.clearPartners]
  split
  · exact ⟨hv, rfl⟩
  · exact ⟨hv, rfl⟩

theorem Keeps.loadCache {t t' : Table nodeTableSize Node} {file : Option (List UInt8)}
    {buffer : Fin 80 → UInt8} (h : loadCache t file buffer = some t') :
    Keeps t.entries t'.entries := by
  rcases loadCache_spec h with rfl | ⟨uuid, i, f, hspec, heq⟩
  · exact .refl _
  · rw [heq]
    exact (Keeps.clearPartners t).trans ((Keeps.interns hspec).trans (.makePartner f i))

/-- The peer's node, if any, is valid and has the UUID that it had when the peer was given it. -/
def State.Good (s : State) (x : ℤ) (j : PeerIndex) : Prop :=
  ∀ i, (s.peer x j).node = some i →
    (s.node i).valid = true ∧ (s.node i).uuid.data = s.given x j

/-- Every valid peer has a good reference. -/
def State.Intact (s : State) : Prop := ∀ x j, (s.peer x j).valid = true → s.Good x j

variable {s t : State} {e : Op}

/-- No valid peer refers to a node that is removed, and a slot that is filled for a new address
does not hold a reference that has gone bad. -/
def LeavesNoStale (s : State) : Op → Prop
  | .removeNode uuid => ∀ x j i, (s.peer x j).valid = true → (s.peer x j).node = some i →
      (s.node i).uuid.data ≠ uuid.data
  | .internNeighbor x address => ∀ j, peerEntry.findFirst (s.interfaces x).peers address = none →
      peerEntry.lastFree (s.interfaces x).peers = some j → s.Good x j
  | _ => True

theorem State.Good.keeps {x : ℤ} {j : PeerIndex} (h : s.Good x j)
    (hn : Keeps s.nodes.entries t.nodes.entries) (hp : (t.peer x j).node = (s.peer x j).node)
    (hg : t.given x j = s.given x j) : t.Good x j := by
  intro i hi
  rw [hp] at hi
  obtain ⟨hv, hu⟩ := h i hi
  obtain ⟨hv', hu'⟩ := hn i hv
  refine ⟨hv', ?_⟩
  rw [hg, ← hu]
  exact congrArg UUID.data hu'

/-- An operation on the nodes that keeps the valid ones keeps the references. -/
theorem State.Intact.keeps (h : s.Intact) {nodes : Table nodeTableSize Node}
    (hn : Keeps s.nodes.entries nodes.entries) : ({ s with nodes := nodes } : State).Intact :=
  fun x j hv => (h x j hv).keeps hn rfl rfl

/-- A change to the peers of one interface keeps the references of the others. -/
theorem State.intact_setInterface (h : s.Intact) {x : ℤ} {interface : Interface} :
    (s.setInterface x interface).Intact ↔
      ∀ j, (interface.peers j).valid = true → (s.setInterface x interface).Good x j := by
  constructor
  · intro hi j hv
    exact hi x j (by rwa [State.setInterface_peer_self])
  · intro hx y j hv
    by_cases hxy : y = x
    · subst hxy
      exact hx j (by rwa [State.setInterface_peer_self] at hv)
    · rw [State.setInterface_peer_of_ne s hxy] at hv
      exact (h y j hv).keeps (.refl _) (by rw [State.setInterface_peer_of_ne s hxy]) rfl

theorem Keeps.setNode (peer : Peer) (f : NodeIndex → Node) (i : NodeIndex) :
    Keeps f (peer.setNode f i).2 := by
  rw [Peer.setNode]
  dsimp only
  split
  · exact .makePartner f i
  · exact .refl f

theorem State.good_setInterface {x : ℤ} {interface : Interface} {j : PeerIndex}
    (hn : (interface.peers j).node = (s.peer x j).node) :
    (s.setInterface x interface).Good x j ↔ s.Good x j := by
  rw [State.Good, State.setInterface_peer_self, hn]
  rfl

/-- Removing nodes keeps the references exactly when no valid peer refers to one of them. -/
theorem State.intact_removeNode (h : s.Intact) (uuid : UUID) :
    ({ s with nodes := removeNode s.nodes uuid } : State).Intact ↔
      LeavesNoStale s (.removeNode uuid) := by
  constructor
  · intro hi x j i hv hnode heq
    obtain ⟨hvalid, -⟩ := h x j hv i hnode
    have hgone : ((removeNode s.nodes uuid).entries i).valid = false :=
      Entry.remove_of_hit (e := nodeEntry) (Entry.hit_iff.mpr ⟨hvalid, heq⟩)
    have := (hi x j hv i hnode).1
    rw [State.node, hgone] at this
    cases this
  · intro hc x j hv i hnode
    obtain ⟨hvalid, hgiven⟩ := h x j hv i hnode
    have hsame : (removeNode s.nodes uuid).entries i = s.nodes.entries i := by
      refine Entry.remove_of_ne (e := nodeEntry) ?_
      rw [Bool.eq_false_iff, Ne, Entry.hit_iff]
      exact fun hhit => hc x j i hv hnode hhit.2
    rw [State.node, hsame]
    exact ⟨hvalid, hgiven⟩

/-- Filling a slot keeps the references exactly when the one left in it is good. -/
theorem State.intact_internNeighbor (h : s.Intact) (x : ℤ) (address : In6Addr) :
    (s.setInterface x ((s.interfaces x).internNeighbor address).2).Intact ↔
      LeavesNoStale s (.internNeighbor x address) := by
  have hspec := (s.interfaces x).internNeighbor_spec address
  have hnode := fun j => ((s.interfaces x).internNeighbor_peer address j).1
  rw [State.intact_setInterface h]
  generalize (s.interfaces x).internNeighbor address = r at hspec hnode ⊢
  obtain ⟨r, interface⟩ := r
  dsimp only at hspec hnode ⊢
  generalize hp : interface.peers = p at hspec hnode
  cases hspec with
  | @found i hi =>
    refine iff_of_true (fun j hv => ?_) (fun j ha => ?_)
    · exact (State.good_setInterface (by rw [hp]; rfl)).mpr (h x j hv)
    · rw [Entry.hit_eq_false_of_findFirst ha i] at hi
      cases hi
  | @placed i ha hl =>
    rw [← hp] at hnode
    constructor
    · intro hall j _ hj
      obtain rfl : i = j := Option.some.inj (hl.symm.trans hj)
      refine (State.good_setInterface (hnode i)).mp (hall i ?_)
      rw [Function.update_self]
      rfl
    · intro hc j hv
      refine (State.good_setInterface (hnode j)).mpr ?_
      by_cases hij : j = i
      · exact hij ▸ hc i ha hl
      · rw [Function.update_of_ne hij] at hv
        exact h x j hv
  | full ha hl =>
    refine iff_of_true (fun j hv => ?_) (fun j _ hj => ?_)
    · exact (State.good_setInterface (by rw [hp]; rfl)).mpr (h x j hv)
    · rw [hl] at hj
      cases hj

/-- Which steps keep the references good. -/
theorem Step.intact_iff (h : s.Intact) (hs : Step s e t) : t.Intact ↔ LeavesNoStale s e := by
  cases hs with
  | loadCache hl => exact iff_of_true (h.keeps (.loadCache hl)) trivial
  | clearPartners => exact iff_of_true (h.keeps (.clearPartners _)) trivial
  | internNode => exact iff_of_true (h.keeps (.interns (internNode_spec _ _))) trivial
  | removeNode => exact State.intact_removeNode h _
  | internNeighbor => exact State.intact_internNeighbor h _ _
  | @removeNeighbor x address =>
    refine iff_of_true ((State.intact_setInterface h).mpr fun j hv => ?_) trivial
    rw [Interface.removeNeighbor_spec] at hv
    cases hj : peerEntry.hit (s.interfaces x).peers (peerEntry.keyOf address) j with
    | true =>
      have hgone := Entry.remove_of_hit hj
      rw [show peerEntry.valid = Peer.valid from rfl, hv] at hgone
      cases hgone
    | false =>
      rw [Entry.remove_of_ne hj] at hv
      refine (State.good_setInterface ?_).mpr (h x j hv)
      rw [Interface.removeNeighbor_spec, Entry.remove_of_ne hj]
      rfl
  | @makePartner x j =>
    refine iff_of_true (fun y k hv => ?_) trivial
    by_cases hyk : y = x → k ≠ j
    · rw [State.setPeer_peer_of_ne s hyk] at hv
      exact (h y k hv).keeps (.refl _) (by rw [State.setPeer_peer_of_ne s hyk]) rfl
    · obtain ⟨rfl, rfl⟩ : y = x ∧ k = j := by simpa using hyk
      rw [State.setPeer_peer_self] at hv
      exact (h y k hv).keeps (.refl _) (by rw [State.setPeer_peer_self]; rfl) rfl
  | @setNode x j i _ hv =>
    refine iff_of_true (fun y k hpeer => ?_) trivial
    have hkeep := Keeps.setNode (s.peer x j) s.nodes.entries i
    by_cases hyk : y = x → k ≠ j
    · have hsame := State.setPeer_peer_of_ne s hyk ((s.peer x j).setNode s.nodes.entries i).1
      have hold : (s.peer y k).valid = true := by
        rw [← hsame]
        exact hpeer
      refine (h y k hold).keeps hkeep (congrArg Peer.node hsame) ?_
      by_cases hxy : y = x
      · subst hxy
        dsimp only
        rw [Function.update_self, Function.update_of_ne (hyk rfl)]
      · dsimp only
        rw [Function.update_of_ne hxy]
    · obtain ⟨rfl, rfl⟩ : y = x ∧ k = j := by simpa using hyk
      have hself := State.setPeer_peer_self s y k ((s.peer y k).setNode s.nodes.entries i).1
      intro i' hi'
      obtain rfl : i = i' := Option.some.inj ((congrArg Peer.node hself).symm.trans hi')
      obtain ⟨hv', hu'⟩ := hkeep i hv
      refine ⟨hv', ?_⟩
      dsimp only
      rw [Function.update_self, Function.update_self]
      exact congrArg UUID.data hu'

/-- The references of all valid peers stay good throughout a run exactly when no node is removed
while a valid peer refers to it and no slot whose reference has gone bad is filled. -/
theorem references_intact_iff {h : List (State × Op)} (hr : Run Step .initial h s) :
    Always State.Intact h s ↔ Meets LeavesNoStale h := by
  refine hr.always_iff_meets (I := fun _ => True) trivial ?_ (fun _ _ _ _ _ => trivial) ?_
  · intro x j hv
    cases hv
  · exact fun _ _ _ _ hp hs => hs.intact_iff hp

/-- The one reference in `givenNode` is that of the last slot of interface 0. -/
theorem State.givenNode_node {x : ℤ} {j : PeerIndex} {i : NodeIndex}
    (h : (givenNode.peer x j).node = some i) : i = lastNode := by
  by_cases hxj : x = 0 → j ≠ lastPeer
  · have hnone : (givenNode.peer x j).node = none := by
      calc (givenNode.peer x j).node
          = (partnerPeer.peer x j).node :=
            congrArg Peer.node (State.setPeer_peer_of_ne _ hxj _)
        _ = (twoNodes.peer x j).node := congrArg Peer.node (State.setPeer_peer_of_ne _ hxj _)
        _ = none := (acquainted_peer x j).1
    rw [hnone] at h
    cases h
  · obtain ⟨rfl, rfl⟩ : x = 0 ∧ j = lastPeer := by simpa using hxj
    have hself := State.setPeer_peer_self partnerPeer 0 lastPeer
      ((partnerPeer.peer 0 lastPeer).setNode partnerPeer.nodes.entries lastNode).1
    exact (Option.some.inj ((congrArg Peer.node hself).symm.trans h)).symm

/-- A peer keeps its node while another node is removed. -/
theorem references_intact_iff_pairing : Always State.Intact State.pairing State.otherRemoved := by
  refine (references_intact_iff State.run_pairing).mpr ?_
  simp only [Meets, State.pairing, List.forall_mem_cons, LeavesNoStale, true_and]
  refine ⟨fun j _ _ i hi => ?_, fun x j i _ hi => ?_, List.forall_mem_nil _⟩
  · cases hi
  · rw [State.givenNode_node hi]
    decide +kernel

/-- A peer is given a node, and the node is removed. -/
theorem dangling_reference : ∃ h s, Run Step .initial h s ∧ ¬ s.Intact := by
  refine ⟨_, _, .next (.next (.next (.next .start
    (@Step.internNode _ (.ofData fun _ => 1))) (@Step.internNeighbor _ 0 fun _ => 1))
    (@Step.setNode _ 0 ⟨4095, by decide⟩ ⟨4095, by decide⟩ nofun (by decide +kernel)))
    (@Step.removeNode _ (.ofData fun _ => 1)), fun h => ?_⟩
  have hgood := h 0 ⟨4095, by decide⟩ (by decide +kernel) ⟨4095, by decide⟩ (by decide +kernel)
  exact absurd hgood.1 (by decide +kernel)

end Redx.Monitor
