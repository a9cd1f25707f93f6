import Redx.Monitor.State
import Redx.Monitor.Map
import Mathlib.Data.Finset.Card

/-!
# At most one partner

`load_cache` clears every partner before it makes one, but giving a node to a peer that is a
partner makes the node a partner beside those already there. A run keeps a single partner as
long as every node made a partner in this way finds no other.
-/
namespace Redx.Monitor
open Library

variable {f f' : NodeIndex → Node}

def SinglePartner (f : NodeIndex → Node) : Prop :=
  ∀ i j, (f i).isPartner = true → (f j).isPartner = true → i = j

/-- Entries that are not valid have no partner flag. -/
def Clean (f : NodeIndex → Node) : Prop := ∀ i, (f i).valid = false → (f i).partner = false

theorem saveCache_count (t : Table nodeTableSize Node) :
    (saveCache t).2 =
      ((List.finRange nodeTableSize).filter fun i => (t.entries i).isPartner).length := by
  have h : ∀ (l : List NodeIndex) (saved : List UInt8 × ℕ),
      (l.foldl (fun saved i => saveEntry saved (t.entries i)) saved).2 =
        saved.2 + (l.filter fun i => (t.entries i).isPartner).length := by
    intro l
    induction l with
    | nil => simp
    | cons i l ih =>
      intro saved
      rw [List.foldl_cons, ih, saveEntry]
      by_cases hp : (t.entries i).isPartner = true
      · simp only [if_pos hp, List.filter_cons, List.length_cons]
        omega
      · simp only [if_neg hp, List.filter_cons]
  rw [saveCache, h, Nat.zero_add]

/-- `save_cache` reports a bug exactly when there is more than one partner. -/
theorem reportsBug_iff (t : Table nodeTableSize Node) :
    ¬ reportsBug t ↔ SinglePartner t.entries := by
  have hnodup := (List.nodup_finRange nodeTableSize).filter fun i => (t.entries i).isPartner
  rw [reportsBug, saveCache_count, Nat.not_lt, ← List.toFinset_card_of_nodup hnodup,
    Finset.card_le_one_iff]
  simp [SinglePartner]

theorem isPartner_clear (t : Table nodeTableSize Node) (i : NodeIndex) :
    ((clearPartners t).entries i).isPartner = false := by
  simp only [clearPartners]
  split
  · simp [Node.isPartner, Node.clearPartner]
  · simp_all

theorem Clean.clear {t : Table nodeTableSize Node} (h : Clean t.entries) :
    Clean (clearPartners t).entries := by
  intro i hv
  simp only [clearPartners] at hv ⊢
  by_cases hp : (t.entries i).isPartner = true
  · rw [if_pos hp]
    rfl
  · rw [if_neg hp] at hv ⊢
    exact h i hv

theorem SinglePartner.of_imp (h : SinglePartner f)
    (hi : ∀ i, (f' i).isPartner = true → (f i).isPartner = true) : SinglePartner f' :=
  fun i j hi' hj' => h i j (hi i hi') (hi j hj')

section Interns

variable {uuid : UUID} {r : Option NodeIndex}

/-- Interning a node makes no partner: a slot that was not valid had no flag. -/
theorem isPartner_interns (h : nodeEntry.Interns f uuid r f') (hc : Clean f) (i : NodeIndex) :
    (f' i).isPartner = (f i).isPartner := by
  cases h with
  | found => rfl
  | full => rfl
  | @placed j ha hl =>
    by_cases hij : i = j
    · subst hij
      have hv : (f i).valid = false := nodeEntry.lastFree_some hl
      rw [Function.update_self]
      simp [Node.isPartner, nodeEntry, Node.setUuid, hc i hv]
    · rw [Function.update_of_ne hij]

theorem Clean.interns (hc : Clean f) (h : nodeEntry.Interns f uuid r f') : Clean f' := by
  cases h with
  | found => exact hc
  | full => exact hc
  | @placed j ha hl =>
    intro i hv
    by_cases hij : i = j
    · subst hij
      rw [Function.update_self] at hv
      cases hv
    · rw [Function.update_of_ne hij] at hv ⊢
      exact hc i hv

end Interns

theorem isPartner_remove {uuid : UUID} {i : NodeIndex}
    (h : (nodeEntry.remove f uuid i).isPartner = true) : (f i).isPartner = true := by
  unfold Entry.remove at h
  split at h
  · cases h
  · exact h

theorem Clean.remove (hc : Clean f) (uuid : UUID) : Clean (nodeEntry.remove f uuid) := by
  intro i hv
  cases hi : nodeEntry.hit f (nodeEntry.keyOf uuid) i with
  | true =>
    rw [Entry.remove, if_pos hi]
    rfl
  | false =>
    rw [Entry.remove_of_ne hi] at hv ⊢
    exact hc i hv

theorem Clean.makePartner (hc : Clean f) {i : NodeIndex} (hv : (f i).valid = true) :
    Clean (Function.update f i (f i).makePartner) := by
  intro j hj
  by_cases hij : j = i
  · subst hij
    rw [Function.update_self] at hj
    rw [Node.makePartner, hv] at hj
    cases hj
  · rw [Function.update_of_ne hij] at hj ⊢
    exact hc j hj

/-- After making `i` a partner there is a single one exactly when there was no other before. -/
theorem singlePartner_makePartner {i : NodeIndex} (hv : (f i).valid = true) :
    SinglePartner (Function.update f i (f i).makePartner) ↔
      ∀ j, (f j).isPartner = true → j = i := by
  have hi : (Function.update f i (f i).makePartner i).isPartner = true := by
    rw [Function.update_self]
    simp [Node.isPartner, Node.makePartner, hv]
  constructor
  · intro h j hj
    by_contra hne
    refine hne (h j i ?_ hi)
    rwa [Function.update_of_ne hne]
  · intro h x y hx hy
    have hall : ∀ j, (Function.update f i (f i).makePartner j).isPartner = true → j = i := by
      intro j hj
      by_contra hne
      rw [Function.update_of_ne hne] at hj
      exact hne (h j hj)
    rw [hall x hx, hall y hy]

/-- `load_cache` leaves the node that it loaded as the only partner. -/
theorem loadCache_partner {t t' : Table nodeTableSize Node} {file : Option (List UInt8)}
    {buffer : Fin 80 → UInt8} (hc : Clean t.entries) (h : loadCache t file buffer = some t') :
    Clean t'.entries ∧ (SinglePartner t.entries → SinglePartner t'.entries) := by
  rcases loadCache_spec h with rfl | ⟨uuid, i, f, hspec, heq⟩
  · exact ⟨hc, id⟩
  · have hv := (Entry.hit_iff.mp (hspec.finds.1 i rfl)).1
    rw [heq]
    refine ⟨(hc.clear.interns hspec).makePartner hv, fun _ => ?_⟩
    refine (singlePartner_makePartner hv).mpr fun j hj => ?_
    rw [isPartner_interns hspec hc.clear, isPartner_clear] at hj
    cases hj

variable {s t : State} {e : Op}

/-- The node table has a single partner, and `save_cache` agrees. -/
def State.SinglePartner (s : State) : Prop :=
  Monitor.SinglePartner s.nodes.entries ∧ ¬ reportsBug s.nodes

theorem State.singlePartner_iff : s.SinglePartner ↔ Monitor.SinglePartner s.nodes.entries := by
  rw [SinglePartner, reportsBug_iff, and_self]

/-- A peer that is a partner is not given a node that is none while another node is one. -/
def NoOtherPartner (s : State) : Op → Prop
  | .setNode x j i => (s.peer x j).partner = true → (s.node i).partner = false →
      ∀ k, (s.node k).isPartner = false
  | _ => True

theorem Step.clean (hc : Clean s.nodes.entries) (h : Step s e t) : Clean t.nodes.entries := by
  cases h with
  | loadCache h => exact (loadCache_partner hc h).1
  | clearPartners => exact hc.clear
  | internNode => exact hc.interns (internNode_spec _ _)
  | removeNode => exact hc.remove _
  | internNeighbor => exact hc
  | removeNeighbor => exact hc
  | makePartner => exact hc
  | @setNode x j i _ hv =>
    dsimp only [Peer.setNode]
    split
    · exact hc.makePartner hv
    · exact hc

/-- Only giving a node to a peer can make a second partner. -/
theorem Step.singlePartner_iff (hc : Clean s.nodes.entries)
    (hp : SinglePartner s.nodes.entries) (h : Step s e t) :
    SinglePartner t.nodes.entries ↔ NoOtherPartner s e := by
  cases h with
  | loadCache h => exact iff_of_true ((loadCache_partner hc h).2 hp) trivial
  | clearPartners =>
    exact iff_of_true (hp.of_imp fun i hi => by simp [isPartner_clear] at hi) trivial
  | @internNode uuid =>
    refine iff_of_true (hp.of_imp fun i hi => ?_) trivial
    rwa [isPartner_interns (internNode_spec s.nodes uuid) hc] at hi
  | removeNode => exact iff_of_true (hp.of_imp fun i hi => isPartner_remove hi) trivial
  | internNeighbor => exact iff_of_true hp trivial
  | removeNeighbor => exact iff_of_true hp trivial
  | makePartner => exact iff_of_true hp trivial
  | @setNode x j i _ hv =>
    dsimp only [Peer.setNode, NoOtherPartner]
    by_cases hmake : (s.peer x j).partner = true ∧ (s.nodes.entries i).partner = false
    · obtain ⟨hpeer, hnode⟩ := hmake
      have hi : (s.node i).isPartner = false := by simp [State.node, Node.isPartner, hnode]
      rw [if_pos ⟨hpeer, hnode⟩, singlePartner_makePartner (f := s.nodes.entries) hv]
      constructor
      · intro hall _ _ k
        by_contra hk
        rw [Bool.not_eq_false] at hk
        rw [hall k hk, hi] at hk
        cases hk
      · intro hall k hk
        have := hall hpeer hnode k
        rw [State.node, hk] at this
        cases this
    · rw [if_neg hmake]
      exact iff_of_true hp fun h₁ h₂ => absurd ⟨h₁, h₂⟩ hmake

/-- A run keeps a single partner throughout exactly when, whenever a peer that is a partner is
given a node that is not, no node is a partner yet. -/
theorem single_partner_iff {h : List (State × Op)} (hr : Run Step .initial h s) :
    Always State.SinglePartner h s ↔ Meets NoOtherPartner h := by
  have hinit : ∀ i, ((State.initial).nodes.entries i).isPartner = false := fun _ => rfl
  refine hr.always_iff_meets (I := fun s => Clean s.nodes.entries) ?_ ?_ ?_ ?_
  · exact fun i _ => rfl
  · refine State.singlePartner_iff.mpr fun i j hi => ?_
    rw [hinit] at hi
    cases hi
  · exact fun _ _ _ hc h => h.clean hc
  · intro s e t hc hp h
    rw [State.singlePartner_iff] at hp ⊢
    exact h.singlePartner_iff hc hp

theorem State.partnerPeer_isPartner (i : NodeIndex) :
    (partnerPeer.node i).isPartner = false := by
  have hc : Clean acquainted.nodes.entries :=
    Clean.interns (fun _ _ => rfl) (internNode_spec initial.nodes _)
  calc (partnerPeer.node i).isPartner
      = (acquainted.node i).isPartner := isPartner_interns (internNode_spec _ _) hc i
    _ = (initial.node i).isPartner := isPartner_interns (internNode_spec _ _) (fun _ _ => rfl) i
    _ = false := rfl

/-- The first node given to a partner becomes the only one. -/
theorem single_partner_iff_pairing : Always State.SinglePartner State.pairing State.otherRemoved :=
  (single_partner_iff State.run_pairing).mpr (by
    simpa [Meets, State.pairing, NoOtherPartner] using
      fun _ _ => State.partnerPeer_isPartner)

/-- A peer that is a partner is given one node and then another. -/
theorem two_partners : ∃ h s, Run Step .initial h s ∧ ¬ s.SinglePartner := by
  refine ⟨_, _, .next (.next (.next (.next (.next (.next .start
    (@Step.internNode _ (.ofData fun _ => 1))) (@Step.internNode _ (.ofData fun _ => 2)))
    (@Step.internNeighbor _ 0 fun _ => 1)) (@Step.makePartner _ 0 ⟨4095, by decide⟩ nofun))
    (@Step.setNode _ 0 ⟨4095, by decide⟩ ⟨4095, by decide⟩ nofun (by decide +kernel)))
    (@Step.setNode _ 0 ⟨4095, by decide⟩ ⟨4094, by decide⟩ nofun (by decide +kernel)), ?_⟩
  rintro ⟨h, -⟩
  have := h ⟨4095, by decide⟩ ⟨4094, by decide⟩ (by decide +kernel) (by decide +kernel)
  exact absurd this (by decide)

end Redx.Monitor
