import Redx.Library.Run
import Redx.Monitor.Neighbor

/-!
# The tables as finite maps

Any sequence of `intern`, `find` and `remove` calls leaves a table in which a key has at most one
valid entry, so that the three operations act as those of a map whose capacity is the table's.
-/
namespace Redx.Monitor
open Library

/-- The operations of a table, with the entries they work on and what each does to them. -/
structure Operations {σ α κ : Type} [DecidableEq κ] (e : Entry σ α κ) (n : ℕ) (τ : Type) where
  entries : τ → Fin n → σ
  intern : τ → α → Option (Fin n) × τ
  find : τ → α → Option (Fin n)
  remove : τ → α → τ
  intern_spec : ∀ t a, e.Interns (entries t) a (intern t a).1 (entries (intern t a).2)
  find_spec : ∀ t a, e.Finds (entries t) a (find t a)
  remove_spec : ∀ t a, entries (remove t a) = e.remove (entries t) a

inductive Query (α : Type) where
  | intern (a : α)
  | find (a : α)
  | remove (a : α)

namespace Operations

variable {n : ℕ} {σ α κ τ : Type} [DecidableEq κ] {e : Entry σ α κ} (o : Operations e n τ)

inductive Step : τ → Query α → τ → Prop
  | intern {t : τ} {a : α} : Step t (.intern a) (o.intern t a).2
  | find {t : τ} {a : α} : Step t (.find a) t
  | remove {t : τ} {a : α} : Step t (.remove a) (o.remove t a)

/-- In the state `t` the operations act as those of a map with `n` entries. -/
structure ActsAsMap (t : τ) : Prop where
  unique : e.Unique (o.entries t)
  intern_holds : ∀ a i, (o.intern t a).1 = some i →
    e.valid (o.entries (o.intern t a).2 i) = true ∧
      e.key (o.entries (o.intern t a).2 i) = e.keyOf a
  intern_find : ∀ a, o.find (o.intern t a).2 a = (o.intern t a).1
  intern_again : ∀ a, (o.intern (o.intern t a).2 a).1 = (o.intern t a).1 ∧
    o.entries (o.intern (o.intern t a).2 a).2 = o.entries (o.intern t a).2
  intern_frame : ∀ a i, e.valid (o.entries t i) = true →
    o.entries (o.intern t a).2 i = o.entries t i
  intern_eq_none : ∀ a, (o.intern t a).1 = none ↔
    (∀ i, e.valid (o.entries t i) = true → e.key (o.entries t i) ≠ e.keyOf a) ∧
      ∀ i, e.valid (o.entries t i) = true
  find_remove : ∀ a, o.find (o.remove t a) a = none
  remove_frame : ∀ a i, e.key (o.entries t i) ≠ e.keyOf a →
    o.entries (o.remove t a) i = o.entries t i

variable {o} {t t' : τ}

theorem Step.unique {q : Query α} (h : o.Step t q t') (hu : e.Unique (o.entries t)) :
    e.Unique (o.entries t') := by
  cases h with
  | intern => exact (o.intern_spec t _).unique hu
  | find => exact hu
  | remove =>
    rw [o.remove_spec]
    exact hu.remove

theorem actsAsMap_of_unique (hu : e.Unique (o.entries t)) : o.ActsAsMap t where
  unique := hu
  intern_holds a i h := Entry.hit_iff.mp ((o.intern_spec t a).finds.1 i h)
  intern_find a :=
    (o.find_spec _ a).unique ((o.intern_spec t a).unique hu) (o.intern_spec t a).finds
  intern_again a := (o.intern_spec t a).again (o.intern_spec _ a) hu
  intern_frame a i hv := (o.intern_spec t a).frame hv
  intern_eq_none a := by
    rw [(o.intern_spec t a).eq_none]
    simp only [Entry.hit, Bool.and_eq_false_iff, decide_eq_false_iff_not]
    refine and_congr_left fun hall => forall_congr' fun i => ?_
    simp [hall i]
  find_remove a := by
    have h := o.find_spec (o.remove t a) a
    rw [o.remove_spec] at h
    exact h.unique hu.remove Entry.remove_finds
  remove_frame a i hk := by
    rw [o.remove_spec]
    exact Entry.remove_of_ne (by simp [Entry.hit, hk])

/-- A table that starts without valid entries acts as a map after any sequence of calls. -/
theorem actsAsMap_of_reachable {t₀ : τ} (h₀ : ∀ i, e.valid (o.entries t₀ i) = false)
    (hr : Reachable o.Step t₀ t) : o.ActsAsMap t := by
  have hinit : e.Unique (o.entries t₀) := by
    intro i _ hi
    rw [h₀ i] at hi
    cases hi
  exact actsAsMap_of_unique
    (hr.invariant (P := fun t => e.Unique (o.entries t)) hinit fun _ _ _ hu h => h.unique hu)

end Operations

def nodeOperations : Operations nodeEntry nodeTableSize (Table nodeTableSize Node) where
  entries t := t.entries
  intern := internNode
  find := findNode
  remove := removeNode
  intern_spec t a := internNode_spec t a
  find_spec t a := Entry.findLast_finds t.entries a
  remove_spec _ _ := rfl

namespace Interface

theorem internNeighbor_spec (x : Interface) (address : In6Addr) :
    peerEntry.Interns x.peers address (x.internNeighbor address).1
      (x.internNeighbor address).2.peers := by
  have h := Entry.intern_spec (e := peerEntry) ⟨x.peers, x.warningReported, x.errorReported⟩ address
  simpa only [internNeighbor, peers, Option.getD_some] using h

/-- A peer's slot keeps its node and its partner flag when it is filled. -/
theorem internNeighbor_peer (x : Interface) (address : In6Addr) (j : Fin neighborTableSize) :
    ((x.internNeighbor address).2.peers j).node = (x.peers j).node ∧
      ((x.internNeighbor address).2.peers j).partner = (x.peers j).partner := by
  have hspec := x.internNeighbor_spec address
  generalize x.internNeighbor address = r at hspec ⊢
  obtain ⟨r, y⟩ := r
  dsimp only at hspec ⊢
  generalize y.peers = p at hspec ⊢
  cases hspec with
  | found => exact ⟨rfl, rfl⟩
  | full => exact ⟨rfl, rfl⟩
  | @placed i =>
    by_cases hij : j = i
    · rw [hij, Function.update_self]
      exact ⟨rfl, rfl⟩
    · rw [Function.update_of_ne hij]
      exact ⟨rfl, rfl⟩

theorem peers_of_none {x : Interface} (h : x.neighbors = none) (a : In6Addr)
    (i : Fin neighborTableSize) : peerEntry.hit x.peers a i = false := by
  rw [peers, h]
  rfl

theorem findNeighbor_spec (x : Interface) (address : In6Addr) :
    peerEntry.Finds x.peers address (x.findNeighbor address) := by
  cases h : x.neighbors with
  | none =>
    rw [findNeighbor, h]
    exact ⟨nofun, fun _ i => peers_of_none h address i⟩
  | some t =>
    have hfinds := Entry.findFirst_finds (e := peerEntry) t address
    simpa only [findNeighbor, peers, h, Option.bind_some, Option.getD_some] using hfinds

theorem removeNeighbor_spec (x : Interface) (address : In6Addr) :
    (x.removeNeighbor address).peers = peerEntry.remove x.peers address := by
  cases h : x.neighbors with
  | none =>
    funext i
    rw [Entry.remove_of_ne (peers_of_none h address i), removeNeighbor, peers, peers, h]
    rfl
  | some t =>
    rw [removeNeighbor, peers, peers, h]
    rfl

end Interface

def neighborOperations : Operations peerEntry neighborTableSize Interface where
  entries x := x.peers
  intern x address := x.internNeighbor address
  find x address := x.findNeighbor address
  remove x address := x.removeNeighbor address
  intern_spec x a := x.internNeighbor_spec a
  find_spec x a := x.findNeighbor_spec a
  remove_spec x a := x.removeNeighbor_spec a

/-- Whatever calls have been made on them, the node table of a monitor and the neighbour table
of an interface act as maps with room for 4096 entries. -/
theorem tables_act_as_maps :
    (∀ t, Reachable nodeOperations.Step newNodeTable t → nodeOperations.ActsAsMap t) ∧
      ∀ x, Reachable neighborOperations.Step newInterface x → neighborOperations.ActsAsMap x :=
  ⟨fun _ h => Operations.actsAsMap_of_reachable (fun _ => rfl) h,
    fun _ h => Operations.actsAsMap_of_reachable (fun _ => rfl) h⟩

/-- Two keys interned, and the first one removed and interned again behind the other. -/
theorem tables_act_as_maps_reused :
    nodeOperations.ActsAsMap (internNode (removeNode (internNode (internNode newNodeTable
        (.ofData fun _ => 1)).2 (.ofData fun _ => 2)).2 (.ofData fun _ => 1))
        (.ofData fun _ => 1)).2 ∧
      neighborOperations.ActsAsMap ((((newInterface.internNeighbor fun _ => 1).2.internNeighbor
        fun _ => 2).2.removeNeighbor fun _ => 1).internNeighbor fun _ => 1).2 :=
  ⟨tables_act_as_maps.1 _ ⟨_, .next (.next (.next (.next .start .intern) .intern) .remove) .intern⟩,
    tables_act_as_maps.2 _
      ⟨_, .next (.next (.next (.next .start .intern) .intern) .remove) .intern⟩⟩

end Redx.Monitor
