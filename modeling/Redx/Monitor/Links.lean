import Mathlib.Data.List.Basic
import Mathlib.Data.Int.Notation
import Mathlib.Logic.Function.Basic

/-!
# The links of the kernel

`LinuxNetworkMonitor` has a map from indices to interfaces, which the kernel's NewLink and DelLink
messages are to keep up to date. A call that reads a string at NULL does not return.
-/
namespace Redx.Monitor.Links

/-- A `char *`: NULL, or a string. -/
abbrev CString := Option (List UInt8)

/-- `strcpy`, which does not return from NULL. -/
def strcpy (src : CString) : Option (List UInt8) := src

def strncpy (src : CString) (size : ℕ) : Option (List UInt8) := src.map (List.take size)

def ifNameSize : ℕ := 16

/-- What the kernel answers while one message is handled: to `socket`, and to the ioctls that take
the name of an interface. -/
structure Kernel where
  packetSocket : Bool
  inetSocket : Bool
  ifindex : List UInt8 → Option ℤ
  hwaddr : List UInt8 → Option (List UInt8)

/-- `Network::Interface` -/
structure Interface where
  name : CString
  index : ℤ
  mac : Option (List UInt8)
  removed : Bool
  deriving DecidableEq, Repr

/-- `network_interface_index` -/
def networkInterfaceIndex (kernel : Kernel) (name : CString) : Option ℤ :=
  if kernel.packetSocket = false then some (-1)
  else do
    let ifrName ← strncpy name ifNameSize
    return (kernel.ifindex ifrName).getD (-1)

/-- `get_mac_address` -/
def getMacAddress (kernel : Kernel) (name : CString) : Option (Option (List UInt8)) :=
  if kernel.inetSocket = false then some none
  else do
    let ifrName ← strncpy name ifNameSize
    return kernel.hwaddr ifrName

def Interface.platformInit (kernel : Kernel) (interface : Interface) : Option Interface := do
  let index ← networkInterfaceIndex kernel interface.name
  let mac ← getMacAddress kernel interface.name
  return { interface with index := index, mac := mac }

/-- `get_settings`, up to the name of its request; what `ethtool` answers is for the speed only. -/
def Interface.getSettings (interface : Interface) : Option (List UInt8) := strcpy interface.name

/-- `Interface::Interface( interp, index )` -/
def Interface.construct (kernel : Kernel) (index : ℤ) : Option Interface := do
  let interface : Interface := ⟨none, index, none, false⟩
  let interface ← interface.platformInit kernel
  let _ ← interface.getSettings
  return interface

def Interface.remove (interface : Interface) : Interface := { interface with removed := true }

/-- The fields of a NewLink or a DelLink that decide what happens to the map. -/
structure Link where
  index : ℤ
  family : ℕ
  bridgeIndex : ℤ
  change : UInt32
  deriving DecidableEq, Repr

def afBridge : ℕ := 7

inductive Message where
  | newLink (link : Link)
  | delLink (link : Link)
  deriving DecidableEq, Repr

/-- `std::map<int, Interface *>`: no entry, an entry NULL or an interface. -/
abbrev Table := ℤ → Option (Option Interface)

def Table.empty : Table := fun _ => none

/-- `interfaces[ index ]`, which makes an entry NULL where there is none. -/
def Table.lookup (table : Table) (index : ℤ) : Table × Option Interface :=
  match table index with
  | none => (Function.update table index (some none), none)
  | some interface => (table, interface)

/-- The bridge of a message of `AF_BRIDGE`, looked up for its name. -/
def Table.lookupBridge (table : Table) (link : Link) : Table :=
  if link.family = afBridge ∧ link.bridgeIndex ≠ 0 then (table.lookup link.bridgeIndex).1 else table

/-- `receive( NewLink * )`. What is reported and repaired leaves the map alone, the index of an
interface and its mark. -/
def receiveNewLink (kernel : Kernel) (table : Table) (link : Link) : Option Table :=
  let (table, interface) := table.lookup link.index
  match interface with
  | none => do
    let interface ← Interface.construct kernel link.index
    return Function.update table link.index (some (some interface))
  | some _ => return table.lookupBridge link

/-- `receive( DelLink * )` -/
def receiveDelLink (table : Table) (link : Link) : Table :=
  if link.index = 0 then table
  else
    let (table, interface) := table.lookup link.index
    match interface with
    | none => table
    | some interface =>
      if link.family = afBridge then table.lookupBridge link
      else if link.change = 0xFFFFFFFF then
        Function.update table link.index (some (some interface.remove))
      else table

def receive (kernel : Kernel) (table : Table) : Message → Option Table
  | .newLink link => receiveNewLink kernel table link
  | .delLink link => some (receiveDelLink table link)

/-- The messages in turn, each with what the kernel answers meanwhile. -/
def run (table : Table) : List (Kernel × Message) → Option Table
  | [] => some table
  | (kernel, message) :: messages => do
    let table ← receive kernel table message
    run table messages

/-- The message is a NewLink for the index, or a DelLink that removes it. -/
def Message.Concerns (i : ℤ) : Message → Prop
  | .newLink link => link.index = i
  | .delLink link => link.index = i ∧ link.change = 0xFFFFFFFF

instance (i : ℤ) : (message : Message) → Decidable (message.Concerns i)
  | .newLink link => inferInstanceAs (Decidable (link.index = i))
  | .delLink link => inferInstanceAs (Decidable (link.index = i ∧ link.change = 0xFFFFFFFF))

/-- The last message that concerns the index is a NewLink. -/
def Present (messages : List Message) (i : ℤ) : Prop :=
  ∃ link, messages.reverse.find? (·.Concerns i) = some (.newLink link)

/-- The map has, under their own indices, the interfaces that are present. -/
def Mirrored (table : Table) (messages : List Message) : Prop :=
  ∀ i, (∃ interface, table i = some (some interface) ∧ interface.index = i ∧
    interface.removed = false) ↔ Present messages i

/-- After each message there is a map, and it mirrors the messages so far. -/
def Mirrors (messages : List (Kernel × Message)) : Prop :=
  ∀ n ≤ messages.length, ∃ table, run .empty (messages.take n) = some table ∧
    Mirrored table ((messages.take n).map Prod.snd)

variable {table table' : Table} {i j : ℤ} {interface : Interface} {kernel : Kernel} {link : Link}
  {message : Message} {messages : List (Kernel × Message)}

/-- No entry is an interface. -/
def Vacant (table : Table) : Prop := ∀ i interface, table i ≠ some (some interface)

/-- The name is NULL: one of the three calls that read it does not return. -/
theorem construct_eq_none (kernel : Kernel) (i : ℤ) : Interface.construct kernel i = none := by
  rw [Interface.construct, Interface.platformInit, networkInterfaceIndex, getMacAddress]
  cases kernel.packetSocket <;> cases kernel.inetSocket <;> rfl

section Lookup

theorem lookup_eq_some : (table.lookup j).1 i = some (some interface) ↔
    table i = some (some interface) := by
  unfold Table.lookup
  split
  · rename_i hnone
    by_cases h : i = j
    · subst h
      simp [hnone]
    · dsimp only
      rw [Function.update_of_ne h]
  · rfl

theorem lookupBridge_eq_some : table.lookupBridge link i = some (some interface) ↔
    table i = some (some interface) := by
  unfold Table.lookupBridge
  split
  · exact lookup_eq_some
  · rfl

theorem Vacant.lookup (h : Vacant table) (i : ℤ) :
    Vacant (table.lookup i).1 ∧ (table.lookup i).2 = none := by
  refine ⟨fun j interface hj => h j interface (lookup_eq_some.mp hj), ?_⟩
  unfold Table.lookup
  split
  · rfl
  · rename_i entry hentry
    cases entry with
    | none => rfl
    | some interface => exact absurd hentry (h i interface)

end Lookup

section Vacant

theorem Vacant.receiveNewLink (h : Vacant table) : receiveNewLink kernel table link = none := by
  dsimp only [Links.receiveNewLink]
  rw [(h.lookup link.index).2, construct_eq_none]
  rfl

theorem Vacant.receiveDelLink (h : Vacant table) : Vacant (receiveDelLink table link) := by
  dsimp only [Links.receiveDelLink]
  split
  · exact h
  · rw [(h.lookup link.index).2]
    exact (h.lookup link.index).1

/-- From a map without interfaces a run goes on exactly as long as no NewLink comes. -/
theorem Vacant.run (h : Vacant table) :
    (∃ table', run table messages = some table') ↔ ∀ x ∈ messages, ∀ link, x.2 ≠ .newLink link := by
  induction messages generalizing table with
  | nil => exact ⟨fun _ => nofun, fun _ => ⟨table, rfl⟩⟩
  | cons x messages ih =>
    obtain ⟨kernel, message⟩ := x
    rw [List.forall_mem_cons]
    cases message with
    | newLink link =>
      simp [Links.run, receive, h.receiveNewLink]
    | delLink link =>
      rw [← ih (h.receiveDelLink : Vacant (Links.receiveDelLink table link))]
      simp [Links.run, receive]

/-- No run from there makes an interface. -/
theorem Vacant.of_run (h : Vacant table) (hrun : Links.run table messages = some table') :
    Vacant table' := by
  induction messages generalizing table with
  | nil => exact Option.some.inj hrun ▸ h
  | cons x messages ih =>
    obtain ⟨kernel, message⟩ := x
    cases message with
    | newLink link => simp [Links.run, receive, h.receiveNewLink] at hrun
    | delLink link => exact ih h.receiveDelLink hrun

end Vacant

theorem vacant_empty : Vacant .empty := fun _ _ => nofun

theorem not_present {messages : List Message} (h : ∀ x ∈ messages, ∀ link, x ≠ .newLink link) :
    ¬ Present messages i := by
  rintro ⟨link, hfind⟩
  exact h _ (List.mem_reverse.mp (List.mem_of_find?_eq_some hfind)) link rfl

/-- The map mirrors the kernel's links if and only if the kernel reports no link: the first
NewLink of a sequence ends the process. -/
theorem mirrors_iff (messages : List (Kernel × Message)) :
    Mirrors messages ↔ ∀ x ∈ messages, ∀ link, x.2 ≠ .newLink link := by
  constructor
  · intro h
    obtain ⟨table, hrun, -⟩ := h messages.length (Nat.le_refl _)
    rw [List.take_length] at hrun
    exact vacant_empty.run.mp ⟨table, hrun⟩
  · intro h n _
    have htake : ∀ x ∈ messages.take n, ∀ link, x.2 ≠ .newLink link :=
      fun x hx => h x (List.mem_of_mem_take hx)
    obtain ⟨table, hrun⟩ := vacant_empty.run.mpr htake
    refine ⟨table, hrun, fun i => ?_⟩
    have hvacant := vacant_empty.of_run hrun
    have hpresent : ¬ Present ((messages.take n).map Prod.snd) i := by
      refine not_present fun x hx => ?_
      obtain ⟨y, hy, rfl⟩ := List.mem_map.mp hx
      exact htake y hy
    exact iff_of_false (fun ⟨interface, hinterface, _⟩ => hvacant i interface hinterface) hpresent

/-- One NewLink, for index 1. -/
def loopback : List (Kernel × Message) := [
  (⟨true, true, fun _ => none, fun _ => none⟩, .newLink ⟨1, 0, 0, 0xFFFFFFFF⟩)]

theorem not_mirrors : ¬ Mirrors loopback := by
  intro h
  obtain ⟨table, hrun, -⟩ := h 1 (by decide)
  have hnone : run .empty (loopback.take 1) = none := rfl
  rw [hnone] at hrun
  cases hrun

section Removed

/-- An interface that was removed. -/
def Removed (table : Table) (i : ℤ) : Prop :=
  ∃ interface, table i = some (some interface) ∧ interface.removed = true

theorem Removed.update (h : Removed table i) {entry : Interface} (hentry : entry.removed = true) :
    Removed (Function.update table j (some (some entry))) i := by
  by_cases hij : i = j
  · subst hij
    exact ⟨entry, Function.update_self .., hentry⟩
  · obtain ⟨interface, hinterface, hremoved⟩ := h
    exact ⟨interface, by rwa [Function.update_of_ne hij], hremoved⟩

theorem Removed.lookup (h : Removed table i) : Removed (table.lookup j).1 i := by
  obtain ⟨interface, hinterface, hremoved⟩ := h
  exact ⟨interface, lookup_eq_some.mpr hinterface, hremoved⟩

theorem Removed.lookupBridge (h : Removed table i) : Removed (table.lookupBridge link) i := by
  obtain ⟨interface, hinterface, hremoved⟩ := h
  exact ⟨interface, lookupBridge_eq_some.mpr hinterface, hremoved⟩

theorem Removed.receiveNewLink (h : Removed table i)
    (hreceive : receiveNewLink kernel table link = some table') : Removed table' i := by
  dsimp only [Links.receiveNewLink] at hreceive
  split at hreceive
  · rw [construct_eq_none] at hreceive
    cases hreceive
  · exact Option.some.inj hreceive ▸ h.lookup.lookupBridge

theorem Removed.receiveDelLink (h : Removed table i) : Removed (receiveDelLink table link) i := by
  dsimp only [Links.receiveDelLink]
  split
  · exact h
  · split
    · exact h.lookup
    · split_ifs
      · exact h.lookup.lookupBridge
      · exact h.lookup.update rfl
      · exact h.lookup

/-- Nothing clears the mark: a removed interface stays so, whichever NewLink comes for it. -/
theorem Removed.run (h : Removed table i) (hrun : run table messages = some table') :
    Removed table' i := by
  induction messages generalizing table with
  | nil => exact Option.some.inj hrun ▸ h
  | cons x messages ih =>
    obtain ⟨kernel, message⟩ := x
    obtain ⟨next, hnext, hrest⟩ := Option.bind_eq_some_iff.mp hrun
    refine ih ?_ hrest
    cases message with
    | newLink link => exact h.receiveNewLink hnext
    | delLink link => exact Option.some.inj hnext ▸ h.receiveDelLink

end Removed

end Redx.Monitor.Links
