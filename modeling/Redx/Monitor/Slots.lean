import Redx.Library.Run
import Redx.Monitor.State

/-!
# Slots and their histories

The slots of the two tables with all their fields, and the operations that reach them: those of
the table, which find a slot by its key, and those on a slot through a pointer, which anyone may
still hold after the slot is invalidated. What happens to one slot is its history.
-/
namespace Redx.Monitor
open Library

/-- `struct timeval` -/
structure Timeval where
  sec : ℤ
  usec : ℤ
  deriving DecidableEq

/-- A `Peer` with the fields that the tables do not look at. -/
structure PeerSlot extends Peer where
  ordinal : UInt8
  isPrivate : Bool
  updated : Timeval
  advertised : Timeval
  deriving DecidableEq

namespace PeerSlot

def zero : PeerSlot := ⟨Peer.zero, 0, false, ⟨0, 0⟩, ⟨0, 0⟩⟩

def invalidate (slot : PeerSlot) : PeerSlot := { slot with toPeer := slot.toPeer.invalidate }

def makePartner (slot : PeerSlot) : PeerSlot := { slot with toPeer := slot.toPeer.makePartner }

def setInterface (slot : PeerSlot) (setPrivate : Bool) (setOrdinal : UInt8) : PeerSlot :=
  { slot with isPrivate := setPrivate, ordinal := setOrdinal }

/-- The name is a copy; `none` is NULL. -/
def setInterfaceName (slot : PeerSlot) (name : Option (List UInt8)) : PeerSlot :=
  { slot with name := name }

def setNode (slot : PeerSlot) (that : Option NodeIndex) : PeerSlot := { slot with node := that }

def setAddress (slot : PeerSlot) (address : In6Addr) : PeerSlot :=
  { slot with toPeer := slot.toPeer.setAddress address }

def touch (slot : PeerSlot) (now : Timeval) : PeerSlot := { slot with updated := now }

def touchAdvertised (slot : PeerSlot) (now : Timeval) : PeerSlot := { slot with advertised := now }

def setReported (slot : PeerSlot) (reported : Bool) : PeerSlot := { slot with reported := reported }

end PeerSlot

def peerSlotEntry : Entry PeerSlot In6Addr In6Addr where
  valid slot := slot.valid
  key slot := slot.lladdr
  keyOf address := address
  fill slot address := (slot.setInterfaceName none).setAddress address
  invalidate := PeerSlot.invalidate
  valid_fill _ _ := rfl
  key_fill _ _ := rfl
  valid_invalidate _ := rfl

/-- The table that `intern_neighbor` maps and invalidates. -/
def newPeerTable : Table neighborTableSize PeerSlot :=
  ⟨fun _ => PeerSlot.zero.invalidate, false, false⟩

/-- What can be done to a node through a pointer. -/
inductive NodeOp where
  | set (uuid : UUID)
  | ordinal (value : UInt8)
  | makePartner
  | clearPartner

def NodeOp.act (node : Node) : NodeOp → Node
  | set uuid => { node with uuid := uuid }
  | ordinal value => { node with ordinal := value }
  | makePartner => node.makePartner
  | clearPartner => node.clearPartner

/-- What can be done to a peer through a pointer. -/
inductive PeerOp where
  | makePartner
  | setInterface (setPrivate : Bool) (setOrdinal : UInt8)
  | setInterfaceName (name : Option (List UInt8))
  | node (that : Option NodeIndex)
  | touch (now : Timeval)
  | touchAdvertised (now : Timeval)
  | reported (value : Bool)

def PeerOp.act (slot : PeerSlot) : PeerOp → PeerSlot
  | makePartner => slot.makePartner
  | setInterface setPrivate setOrdinal => slot.setInterface setPrivate setOrdinal
  | setInterfaceName name => slot.setInterfaceName name
  | node that => slot.setNode that
  | touch now => slot.touch now
  | touchAdvertised now => slot.touchAdvertised now
  | reported value => slot.setReported value

/-- What happens to one slot. -/
inductive SlotOp (α ω : Type) where
  | intern (a : α)
  | invalidate
  | access (o : ω)

/-- The operations of a table, and an access to one of its slots. -/
inductive TableOp (n : ℕ) (α ω : Type) where
  | intern (a : α)
  | remove (a : α)
  | access (i : Fin n) (o : ω)

namespace Entry

variable {n : ℕ} {σ α κ ω : Type} [DecidableEq κ] (e : Entry σ α κ) (act : σ → ω → σ)

def slotStep (s : σ) : SlotOp α ω → σ
  | .intern a => e.fill s a
  | .invalidate => e.invalidate s
  | .access o => act s o

def tableStep (t : Table n σ) : TableOp n α ω → Table n σ
  | .intern a => (e.intern t a).2
  | .remove a => { t with entries := e.remove t.entries a }
  | .access i o => { t with entries := Function.update t.entries i (act (t.entries i) o) }

/-- `intern` takes the slot for a key that is not in the table. -/
def Places (t : Table n σ) (a : α) (i : Fin n) : Prop :=
  (e.intern t a).1 = some i ∧ e.valid (t.entries i) = false

instance (t : Table n σ) (a : α) (i : Fin n) : Decidable (e.Places t a i) := by
  unfold Places
  infer_instance

/-- What an operation of the table does to a slot. -/
def effect (t : Table n σ) (i : Fin n) : TableOp n α ω → Option (SlotOp α ω)
  | .intern a => if e.Places t a i then some (.intern a) else none
  | .remove a => if e.hit t.entries (e.keyOf a) i then some .invalidate else none
  | .access j o => if j = i then some (.access o) else none

def slotHistory (t : Table n σ) (i : Fin n) : List (TableOp n α ω) → List (SlotOp α ω)
  | [] => []
  | op :: ops => (e.effect t i op).toList ++ slotHistory (e.tableStep act t op) i ops

variable {e act} {t : Table n σ} {a : α} {i : Fin n}

theorem places_spec (h : e.Places t a i) :
    (e.intern t a).2.entries = Function.update t.entries i (e.fill (t.entries i) a) := by
  obtain ⟨hr, hv⟩ := h
  have hspec := e.intern_spec t a
  rw [hr] at hspec
  generalize (e.intern t a).2.entries = t' at hspec
  cases hspec with
  | found hi =>
    rw [(hit_iff.mp hi).1] at hv
    cases hv
  | placed => rfl

theorem remove_eq_of_hit {t : Fin n → σ} (h : e.hit t (e.keyOf a) i = true) :
    e.remove t a i = e.invalidate (t i) := by
  simp [remove, h]

/-- In a table without valid entries `intern` takes the last slot. -/
theorem places_of_invalid (h : ∀ j, e.valid (t.entries j) = false) (hi : (i : ℕ) + 1 = n) :
    e.Places t a i := by
  have hlast : e.lastFree t.entries = some i := by
    obtain ⟨m, rfl⟩ : ∃ m, n = m + 1 := ⟨i, hi.symm⟩
    obtain rfl : i = Fin.last m := Fin.ext (Nat.succ.inj hi)
    rw [lastFree, List.finRange_succ_last, List.reverse_append, List.reverse_singleton,
      List.singleton_append, List.find?_cons_of_pos (by rw [h]; rfl)]
  refine ⟨?_, h i⟩
  have hspec := e.intern_spec t a
  generalize (e.intern t a).1 = r at hspec
  generalize (e.intern t a).2.entries = t' at hspec
  cases hspec with
  | found hj =>
    rw [hit, h] at hj
    cases hj
  | placed _ hj => exact hj.symm.trans hlast
  | full _ hnone => exact hnone.symm.trans hlast

/-- A slot of a table without valid entries that is taken, reached through a pointer and given up
again. -/
def reuse (a : α) (i : Fin n) (o : ω) : List (TableOp n α ω) := [.intern a, .access i o, .remove a]

theorem entries_reuse {o : ω} (h : ∀ j, e.valid (t.entries j) = false) (hi : (i : ℕ) + 1 = n)
    (hvalid : e.valid (act (e.fill (t.entries i) a) o) = true)
    (hkey : e.key (act (e.fill (t.entries i) a) o) = e.keyOf a) :
    ((reuse a i o).foldl (e.tableStep act) t).entries =
      Function.update t.entries i (e.invalidate (act (e.fill (t.entries i) a) o)) := by
  have hplaced : e.Places t a i := places_of_invalid h hi
  funext j
  change e.remove (Function.update (e.intern t a).2.entries i
    (act ((e.intern t a).2.entries i) o)) a j = _
  rw [places_spec hplaced, Function.update_idem, Function.update_self]
  by_cases hj : j = i
  · subst hj
    rw [remove_eq_of_hit, Function.update_self, Function.update_self]
    exact hit_iff.mpr ⟨by rwa [Function.update_self], by rwa [Function.update_self]⟩
  · rw [remove_of_ne, Function.update_of_ne hj, Function.update_of_ne hj]
    rw [hit, Function.update_of_ne hj, h j]
    rfl

/-- The history of such a slot. -/
theorem slotHistory_reuse {o : ω} (h : ∀ j, e.valid (t.entries j) = false) (hi : (i : ℕ) + 1 = n)
    (hvalid : e.valid (act (e.fill (t.entries i) a) o) = true)
    (hkey : e.key (act (e.fill (t.entries i) a) o) = e.keyOf a) :
    e.slotHistory act t i (reuse a i o) = [.intern a, .access o, .invalidate] := by
  have hplaced : e.Places t a i := places_of_invalid h hi
  have hlast : (e.tableStep act (e.tableStep act t (.intern a)) (.access i o)).entries i =
      act (e.fill (t.entries i) a) o := by
    change Function.update (e.intern t a).2.entries i (act ((e.intern t a).2.entries i) o) i = _
    rw [Function.update_self, places_spec hplaced, Function.update_self]
  have hhit : e.hit (e.tableStep act (e.tableStep act t (.intern a)) (.access i o)).entries
      (e.keyOf a) i = true := hit_iff.mpr ⟨by rwa [hlast], by rwa [hlast]⟩
  simp only [slotHistory, reuse, effect, if_pos hplaced, if_pos hhit, if_true, Option.toList_some,
    List.append_nil, List.singleton_append]

theorem valid_reuse {o : ω} (h : ∀ j, e.valid (t.entries j) = false) (hi : (i : ℕ) + 1 = n)
    (hvalid : e.valid (act (e.fill (t.entries i) a) o) = true)
    (hkey : e.key (act (e.fill (t.entries i) a) o) = e.keyOf a) (j : Fin n) :
    e.valid (((reuse a i o).foldl (e.tableStep act) t).entries j) = false := by
  rw [entries_reuse h hi hvalid hkey]
  by_cases hj : j = i
  · rw [hj, Function.update_self, e.valid_invalidate]
  · rw [Function.update_of_ne hj, h j]

/-- A slot that `intern` does not take keeps its entry. -/
theorem entries_intern_of_not_places (h : ¬ e.Places t a i) :
    (e.intern t a).2.entries i = t.entries i := by
  have hspec := e.intern_spec t a
  unfold Places at h
  generalize (e.intern t a).1 = r at h hspec
  generalize (e.intern t a).2.entries = t' at hspec
  cases hspec with
  | found => rfl
  | @placed j _ hj =>
    have hne : i ≠ j := by
      rintro rfl
      exact h ⟨rfl, e.lastFree_some hj⟩
    rw [Function.update_of_ne hne]
  | full => rfl

theorem entries_tableStep (op : TableOp n α ω) :
    (e.tableStep act t op).entries i =
      (e.effect t i op).toList.foldl (e.slotStep act) (t.entries i) := by
  cases op with
  | intern a =>
    by_cases h : e.Places t a i
    · rw [tableStep, places_spec h, Function.update_self, effect, if_pos h]
      rfl
    · rw [tableStep, entries_intern_of_not_places h, effect, if_neg h]
      rfl
  | remove a =>
    change (if e.hit t.entries (e.keyOf a) i then _ else _) = _
    rw [effect]
    split <;> rfl
  | access j o =>
    change Function.update t.entries j _ i = _
    rw [effect]
    by_cases h : j = i
    · subst h
      rw [if_pos rfl, Function.update_self]
      rfl
    · rw [if_neg h, Function.update_of_ne (Ne.symm h)]
      rfl

/-- A slot holds what its history has made of it. -/
theorem entries_run (ops : List (TableOp n α ω)) :
    (ops.foldl (e.tableStep act) t).entries i =
      (e.slotHistory act t i ops).foldl (e.slotStep act) (t.entries i) := by
  induction ops generalizing t with
  | nil => rfl
  | cons op ops ih =>
    rw [List.foldl_cons, ih, slotHistory, List.foldl_append, entries_tableStep]

end Entry

end Redx.Monitor
