import Redx.Library.Pieces
import Redx.Monitor.LinkLocal
import Redx.Monitor.Slots

/-!
# The hosts file

`update_hosts` fills a file with zeros, writes an entry for each bridge and for each partner next
to it over them, and renames the file to `hosts`. It logs a write that fails or is short, if at
all, and goes on.
-/
namespace Redx.Monitor
open Library

def hostTableEntries : ℕ := 256

/-- `sizeof(struct host_entry)` -/
def hostEntrySize : ℕ := 64

def hostTableSize : ℕ := hostEntrySize * hostTableEntries

structure HostEntry where
  nodeUuid : Fin 16 → UInt8
  clusterUuid : Fin 16 → UInt8
  primaryAddress : In6Addr
  v4Address : Fin 4 → UInt8
  valid : Bool
  partner : Bool
  isPrivate : Bool
  mac : Fin 6 → UInt8
  nodeOrdinal : UInt8
  interfaceOrdinal : UInt8

namespace HostEntry

/-- What `memset` leaves. -/
def zero : HostEntry where
  nodeUuid := fun _ => 0
  clusterUuid := fun _ => 0
  primaryAddress := fun _ => 0
  v4Address := fun _ => 0
  valid := false
  partner := false
  isPrivate := false
  mac := fun _ => 0
  nodeOrdinal := 0
  interfaceOrdinal := 0

/-- The byte of `flags` that has the three bits in it. -/
def flags (entry : HostEntry) : UInt8 :=
  (if entry.valid then 1 else 0) ||| (if entry.partner then 2 else 0) |||
    (if entry.isPrivate then 4 else 0)

def bytes (entry : HostEntry) : List UInt8 :=
  List.ofFn entry.nodeUuid ++ List.ofFn entry.clusterUuid ++ List.ofFn entry.primaryAddress ++
    List.ofFn entry.v4Address ++ [entry.flags, 0, 0, 0] ++ List.ofFn entry.mac ++
    [entry.nodeOrdinal, entry.interfaceOrdinal]

end HostEntry

/-- What `update_hosts` asks of an interface. -/
structure HostInterface where
  isBridge : Bool
  ordinal : ℤ
  mac : Fin 6 → UInt8
  neighbors : Option (PeerIndex → PeerSlot)

def HostInterface.lladdr (interface : HostInterface) : In6Addr := Monitor.lladdr interface.mac

/-- The map from the index of an interface to the interface, or to NULL, in its order. -/
structure InterfaceMap where
  entries : List (ℤ × Option HostInterface)
  sorted : (entries.map Prod.fst).Pairwise (· < ·)

/-- All that `update_hosts` reads of the monitor, and what `gethostid` returns. -/
structure Tables where
  hostid : ℤ
  nodes : NodeIndex → Node
  interfaces : InterfaceMap

/-- What the system calls do, each in its turn; a write returns how many bytes it took, or -1. -/
structure Calls where
  zeroOpened : Bool
  created : Bool
  filled : Option (Fin (hostTableSize + 1))
  opened : Bool
  written : ℕ → Option (Fin (hostEntrySize + 1))
  unlinked : Bool
  linked : Bool
  renamed : Bool

/-- How many bytes of the data are written. -/
def count {n : ℕ} (result : Option (Fin n)) : ℕ :=
  match result with
  | none => 0
  | some k => k

structure Files where
  hosts : Option (List UInt8)
  hostsTmp : Option (List UInt8)
  hosts1 : Option (List UInt8)

/-- An open file, with its bytes before the offset and those from there on. -/
structure OpenFile where
  before : List UInt8
  after : List UInt8

def OpenFile.bytes (file : OpenFile) : List UInt8 := file.before ++ file.after

def OpenFile.write (file : OpenFile) (data : List UInt8) : OpenFile :=
  ⟨file.before ++ data, file.after.drop data.length⟩

/-- The open file, and how many entries were handed to `write`. -/
structure Writing where
  file : OpenFile
  calls : ℕ

/-- The `write` of an entry; whatever it returns, the code goes on. -/
def writeEntry (calls : Calls) (w : Writing) (entry : HostEntry) : Writing :=
  ⟨w.file.write (entry.bytes.take (count (calls.written w.calls))), w.calls + 1⟩

def neighborEntry (node : Node) (neighbor : PeerSlot) : HostEntry :=
  { HostEntry.zero with
    valid := true
    partner := neighbor.partner
    nodeOrdinal := node.ordinal
    interfaceOrdinal := neighbor.ordinal
    isPrivate := neighbor.isPrivate
    primaryAddress := neighbor.lladdr }

/-- `WriteHostsForNeighbors` -/
def writeHostsForNeighbor (nodes : NodeIndex → Node) (calls : Calls) (w : Writing)
    (neighbor : PeerSlot) : Writing :=
  match neighbor.node with
  | none => w
  | some i =>
    if (nodes i).partner = false then w else writeEntry calls w (neighborEntry (nodes i) neighbor)

/-- `each_neighbor`, for a callback that changes the state `b`. -/
def eachNeighbor {β : Type} (interface : HostInterface) (callback : β → PeerSlot → β) (b : β) : β :=
  match interface.neighbors with
  | none => b
  | some neighbors =>
    (List.finRange neighborTableSize).foldl
      (fun b i => if (neighbors i).valid = false then b else callback b (neighbors i)) b

def interfaceEntry (hostid : ℤ) (interface : HostInterface) : HostEntry :=
  { HostEntry.zero with
    valid := true
    nodeOrdinal := UInt8.ofInt hostid
    interfaceOrdinal := UInt8.ofInt interface.ordinal
    primaryAddress := interface.lladdr
    mac := interface.mac }

/-- `WriteHostsForInterface` -/
def writeHostsForInterface (tables : Tables) (calls : Calls) (w : Writing)
    (interface : HostInterface) : Writing :=
  let entry := interfaceEntry tables.hostid interface
  if interface.isBridge = false then w
  else
    eachNeighbor interface (writeHostsForNeighbor tables.nodes calls) (writeEntry calls w entry)

/-- `each_interface`, for a callback that changes the state `b`. -/
def eachInterface {β : Type} (interfaces : InterfaceMap) (callback : β → HostInterface → β)
    (b : β) : β :=
  interfaces.entries.foldl (fun b entry =>
    match entry.2 with
    | none => b
    | some interface => callback b interface) b

/-- `mkfile("hosts.tmp", HOST_TABLE_SIZE)`. When the zeros could not be mapped, the `write` has a
bad address and fails. -/
def mkfile (calls : Calls) (files : Files) : Bool × Files :=
  if calls.zeroOpened = false then (false, files)
  else if calls.created = false then (false, files)
  else
    (decide (count calls.filled = hostTableSize),
      { files with hostsTmp := some (List.replicate (count calls.filled) 0) })

def updateHosts (tables : Tables) (calls : Calls) (files : Files) : Files :=
  let made := mkfile calls files
  let files := made.2
  if made.1 = false then files
  else if calls.opened = false then files
  else
    let w := eachInterface tables.interfaces (writeHostsForInterface tables calls)
      ⟨⟨[], files.hostsTmp.getD []⟩, 0⟩
    let files := { files with hostsTmp := some w.file.bytes }
    let files := if calls.unlinked then { files with hosts1 := none } else files
    let files := if calls.linked then { files with hosts1 := files.hosts } else files
    if calls.renamed then { files with hosts := files.hostsTmp, hostsTmp := none } else files

/-- The valid neighbours whose node is a partner, with the node. -/
def partnersOf (nodes : NodeIndex → Node) (interface : HostInterface) : List (Node × PeerSlot) :=
  match interface.neighbors with
  | none => []
  | some neighbors =>
    (List.finRange neighborTableSize).filterMap fun j =>
      if (neighbors j).valid = false then none
      else
        (neighbors j).node.bind fun i =>
          if (nodes i).partner = true then some (nodes i, neighbors j) else none

/-- The entries that belong into the file: for each bridge its own, and those of the partners
next to it. -/
def hostEntries (tables : Tables) : List HostEntry :=
  ((tables.interfaces.entries.filterMap Prod.snd).filter HostInterface.isBridge).flatMap
    fun interface => interfaceEntry tables.hostid interface ::
      (partnersOf tables.nodes interface).map fun p => neighborEntry p.1 p.2

/-- The bytes are a table of `HOST_TABLE_ENTRIES` records, of which the entries come first and
the others are zero. -/
def IsHostTable (entries : List HostEntry) (bytes : List UInt8) : Prop :=
  entries.length ≤ hostTableEntries ∧
    bytes = (entries ++ List.replicate (hostTableEntries - entries.length) HostEntry.zero).flatMap
      HostEntry.bytes

/-- The file is the one from before, or a complete table. -/
def Replaces (tables : Tables) (before after : Option (List UInt8)) : Prop :=
  after = before ∨ ∃ bytes, after = some bytes ∧ IsHostTable (hostEntries tables) bytes

/-- `update_hosts` comes to a `rename` that does what it says. -/
def Calls.Installs (calls : Calls) : Prop :=
  calls.zeroOpened = true ∧ calls.created = true ∧ count calls.filled = hostTableSize ∧
    calls.opened = true ∧ calls.renamed = true

/-- What the writes leave in a file of zeros. -/
def leftBehind (tables : Tables) (calls : Calls) : List UInt8 :=
  let taken := pieces ((hostEntries tables).map HostEntry.bytes) fun i => count (calls.written i)
  taken ++ List.replicate (hostTableSize - taken.length) 0

variable {tables : Tables} {calls : Calls} {files : Files}

section Runs

theorem eachNeighbor_eq (nodes : NodeIndex → Node) (interface : HostInterface) (w : Writing) :
    eachNeighbor interface (writeHostsForNeighbor nodes calls) w =
      ((partnersOf nodes interface).map fun p => neighborEntry p.1 p.2).foldl
        (writeEntry calls) w := by
  rw [List.foldl_map]
  unfold eachNeighbor partnersOf
  cases interface.neighbors with
  | none => rfl
  | some neighbors =>
    dsimp only
    rw [List.foldl_filterMap]
    congr 1
    funext w j
    by_cases hv : (neighbors j).valid = false
    · rw [if_pos hv, if_pos hv]
    · rw [if_neg hv, if_neg hv, writeHostsForNeighbor]
      cases (neighbors j).node with
      | none => rfl
      | some i =>
        cases hp : (nodes i).partner <;> simp [hp]

/-- The iterators write the entries, one by one. -/
theorem eachInterface_eq (w : Writing) :
    eachInterface tables.interfaces (writeHostsForInterface tables calls) w =
      (hostEntries tables).foldl (writeEntry calls) w := by
  rw [hostEntries, List.foldl_flatMap, List.foldl_filter, List.foldl_filterMap, eachInterface]
  congr 1
  funext w entry
  obtain ⟨_, _ | interface⟩ := entry
  · rfl
  · dsimp only
    rw [writeHostsForInterface, List.foldl_cons]
    cases hb : interface.isBridge with
    | false => simp
    | true =>
      rw [if_neg (by simp), eachNeighbor_eq]
      simp

theorem foldl_writeEntry (entries : List HostEntry) (w : Writing) :
    (entries.foldl (writeEntry calls) w).file.bytes =
      w.file.before ++ pieces (entries.map HostEntry.bytes)
          (fun i => count (calls.written (w.calls + i))) ++
        w.file.after.drop (pieces (entries.map HostEntry.bytes)
          fun i => count (calls.written (w.calls + i))).length := by
  induction entries generalizing w with
  | nil => simp [pieces, OpenFile.bytes]
  | cons entry entries ih =>
    rw [List.foldl_cons, ih, List.map_cons, pieces]
    simp only [writeEntry, OpenFile.write, List.length_append, List.drop_drop, List.append_assoc,
      Nat.add_zero]
    simp only [Nat.add_assoc, Nat.add_comm 1]

/-- The file before it is renamed. -/
theorem bytes_eachInterface :
    (eachInterface tables.interfaces (writeHostsForInterface tables calls)
      ⟨⟨[], List.replicate hostTableSize 0⟩, 0⟩).file.bytes = leftBehind tables calls := by
  rw [eachInterface_eq, foldl_writeEntry, leftBehind]
  simp only [List.nil_append, List.drop_replicate, Nat.zero_add]

theorem hosts_of_installs (h : calls.Installs) :
    (updateHosts tables calls files).hosts = some (leftBehind tables calls) := by
  obtain ⟨hzero, hcreated, hfilled, hopened, hrenamed⟩ := h
  simp only [updateHosts, mkfile, hzero, hcreated, hfilled, hopened, hrenamed, if_true, decide_true,
    Bool.true_eq_false, if_false, Option.getD_some, bytes_eachInterface]
  cases calls.unlinked <;> cases calls.linked <;> rfl

theorem hosts_of_not_installs (h : ¬ calls.Installs) :
    (updateHosts tables calls files).hosts = files.hosts := by
  unfold updateHosts mkfile
  cases hzero : calls.zeroOpened with
  | false => rfl
  | true =>
    cases hcreated : calls.created with
    | false => rfl
    | true =>
      by_cases hfilled : count calls.filled = hostTableSize
      · cases hopened : calls.opened with
        | false => simp [hfilled]
        | true =>
          have hrenamed : calls.renamed = false := by
            by_contra hrenamed
            exact h ⟨hzero, hcreated, hfilled, hopened, by simpa using hrenamed⟩
          simp only [hfilled, hrenamed, decide_true, Bool.true_eq_false, Bool.false_eq_true,
            if_false]
          cases calls.unlinked <;> cases calls.linked <;> rfl
      · simp [hfilled]

end Runs

section Entries

@[simp] theorem length_bytes (entry : HostEntry) : entry.bytes.length = hostEntrySize := by
  simp [HostEntry.bytes, hostEntrySize]

theorem bytes_zero : HostEntry.zero.bytes = List.replicate hostEntrySize 0 := by
  decide

theorem length_flatten_bytes (entries : List HostEntry) :
    (entries.map HostEntry.bytes).flatten.length = hostEntrySize * entries.length := by
  induction entries with
  | nil => rfl
  | cons entry entries ih =>
    rw [List.map_cons, List.flatten_cons, List.length_append, ih, length_bytes, List.length_cons,
      Nat.mul_succ, Nat.add_comm]

theorem flatten_replicate_zero (n : ℕ) :
    ((List.replicate n HostEntry.zero).map HostEntry.bytes).flatten =
      List.replicate (hostEntrySize * n) 0 := by
  rw [List.map_replicate, bytes_zero, List.flatten_replicate_replicate, Nat.mul_comm]

/-- An entry that is valid is not all zeros. -/
theorem countP_bytes {entry : HostEntry} (h : entry.valid = true) :
    entry.bytes.countP (· ≠ 0) ≠ 0 := by
  have hflags : entry.flags ≠ 0 := by
    unfold HostEntry.flags
    rw [h]
    cases entry.partner <;> cases entry.isPrivate <;> decide
  refine Nat.pos_iff_ne_zero.mp (List.countP_pos_iff.mpr ⟨entry.flags, ?_, by simpa using hflags⟩)
  simp [HostEntry.bytes]

theorem valid_of_mem {entry : HostEntry} (h : entry ∈ hostEntries tables) : entry.valid = true := by
  obtain ⟨interface, -, h⟩ := List.mem_flatMap.mp h
  rcases List.mem_cons.mp h with rfl | h
  · rfl
  · obtain ⟨p, -, rfl⟩ := List.mem_map.mp h
    rfl

/-- What the writes leave is a table when the entries fit and are written out. -/
theorem isHostTable_leftBehind_iff :
    IsHostTable (hostEntries tables) (leftBehind tables calls) ↔
      (hostEntries tables).length ≤ hostTableEntries ∧
        WrittenOut 0 ((hostEntries tables).map HostEntry.bytes)
          fun i => count (calls.written i) := by
  refine and_congr_right fun hfit => ?_
  have hsub := (pieces_sublist ((hostEntries tables).map HostEntry.bytes)
    fun i => count (calls.written i)).length_le
  have hlen := length_flatten_bytes (hostEntries tables)
  have hmul := Nat.mul_le_mul_left hostEntrySize hfit
  rw [leftBehind, List.flatMap_def, List.map_append, List.flatten_append, flatten_replicate_zero]
  refine pieces_eq_iff (fun record hrecord => ?_) ?_
  · obtain ⟨entry, hentry, rfl⟩ := List.mem_map.mp hrecord
    exact countP_bytes (valid_of_mem hentry)
  · rw [hlen, Nat.mul_sub]
    change _ + (hostEntrySize * hostTableEntries - _) = _
    omega

end Entries

/-- The file `hosts` is the one from before or a complete table exactly when it is not replaced,
or held already what each write puts where it begins and zeros behind, or when there is room for
the entries and all are written whole, except that the last one may lack zeros at its end. -/
theorem replaces_iff (tables : Tables) (calls : Calls) (files : Files) :
    Replaces tables files.hosts (updateHosts tables calls files).hosts ↔
      ¬ calls.Installs ∨
        (∃ bytes, files.hosts = some bytes ∧ Retains 0 hostTableSize
          ((hostEntries tables).map HostEntry.bytes) (fun i => count (calls.written i)) bytes) ∨
        (hostEntries tables).length ≤ hostTableEntries ∧
          WrittenOut 0 ((hostEntries tables).map HostEntry.bytes)
            fun i => count (calls.written i) := by
  by_cases h : calls.Installs
  · simp only [Replaces, hosts_of_installs h, ← isHostTable_leftBehind_iff, ← eq_pieces_iff]
    simp [h, leftBehind, eq_comm]
  · rw [Replaces, hosts_of_not_installs h]
    simp [h]

/-- One bridge, whose neighbour table is not mapped yet. -/
def oneBridge : Tables where
  hostid := 0
  nodes := fun _ => Node.zero
  interfaces := ⟨[(1, some ⟨true, 0, fun _ => 0, none⟩)], List.pairwise_singleton _ _⟩

/-- Every call does what it is asked for but the write of an entry, which fails. -/
def oneFails : Calls where
  zeroOpened := true
  created := true
  filled := some (Fin.last hostTableSize)
  opened := true
  written := fun _ => none
  unlinked := true
  linked := true
  renamed := true

theorem oneFails_not_replaces :
    ¬ Replaces oneBridge none (updateHosts oneBridge oneFails ⟨none, none, none⟩).hosts := by
  have hinstalls : oneFails.Installs := ⟨rfl, rfl, rfl, rfl, rfl⟩
  rw [Replaces, hosts_of_installs hinstalls]
  rintro (h | ⟨bytes, hbytes, htable⟩)
  · cases h
  · rw [← Option.some.inj hbytes, isHostTable_leftBehind_iff] at htable
    have hentries : hostEntries oneBridge =
        [interfaceEntry 0 ⟨true, 0, fun _ => 0, none⟩] := rfl
    rw [hentries, List.map_singleton, writtenOut_cons] at htable
    obtain ⟨-, hle | ⟨-, hzero⟩, -⟩ := htable
    · rw [length_bytes] at hle
      exact absurd hle (by decide)
    · exact absurd (hzero 1 (by decide)) (by decide)

end Redx.Monitor
