import Redx.Library.Bytes
import Redx.Smbios.Structure

/-!
# The table of structures

`SMBIOS::Table` maps the pages of physical memory that the table is in, as far as the length that
it is told says, and makes one object for each structure of the table; where one ends, the next
begins. Without a base board in the table it makes one from the system.
-/
namespace Redx.Smbios
open Library

/-- `SMBIOS::Table` -/
structure Table where
  dmi : List Structure
  sockets : List Structure
  bios : Option Structure
  system : Option Structure
  baseboard : Option Structure
  chassis : Option Structure

namespace Table

def empty : Table := ⟨[], [], none, none, none, none⟩

/-- A structure goes to its place. -/
def add (table : Table) (type : UInt8) (s : Structure) : Table :=
  let table := { table with dmi := table.dmi ++ [s] }
  if type = 0 then { table with bios := some s }
  else if type = 1 then { table with system := some s }
  else if type = 2 then { table with baseboard := some s }
  else if type = 3 then { table with chassis := some s }
  else if type = 4 then { table with sockets := table.sockets ++ [s] }
  else table

/-- The loop of the constructor, from structure `i` on. `new` is where the objects are allocated. -/
def walk (memory : Memory) (new : ℕ → ℕ) : ℕ → ℕ → ℕ → Table → Option Table
  | 0, _, _, table => some table
  | count + 1, i, p, table => do
    let type ← memory.read p
    let _ ← memory.read (p + 1)
    let s ← factories type memory (new i) p
    walk memory new count (i + 1) s.next (table.add type s)

/-- `Table::Table`, once the table is mapped at an address. -/
def construct (memory : Memory) (new : ℕ → ℕ) (address : ℕ) (count : UInt16) : Option Table := do
  let table ← walk memory new count.toNat 0 address empty
  match table.baseboard with
  | some _ => return table
  | none =>
    -- `system` is a pointer to a `Structure`: the constructor that it fits takes a `void *`
    let address := match table.system with
      | some s => s.object
      | none => 0
    let baseboard ← baseBoard memory (new count.toNat) address
    return { table with baseboard := some baseboard }

end Table

/-- Where a constructor runs: physical memory, what the process has mapped before, the size of a
page, where the kernel maps the pages and where the objects are allocated. -/
structure Surroundings where
  physical : ℕ → UInt8
  memory : Memory
  pageSize : ℕ
  place : ℕ
  new : ℕ → ℕ
  page_pos : 0 < pageSize

namespace Surroundings

/-- The bytes of so many pages as are begun. -/
def roundUp (m : Surroundings) (length : ℕ) : ℕ :=
  (length + m.pageSize - 1) / m.pageSize * m.pageSize

/-- `mmap`: whole pages from the start of the page of `base` on. -/
def mmap (m : Surroundings) (base length : ℕ) : Memory :=
  m.memory.write m.place ((List.range (m.roundUp (base % m.pageSize + length))).map fun i =>
    m.physical (base - base % m.pageSize + i))

/-- The address of the table in the process. -/
def address (m : Surroundings) (base : ℕ) : ℕ := m.place + base % m.pageSize

/-- `Table::Table`. Where `mmap` is asked for nothing it fails, and the process exits. -/
def table (m : Surroundings) (base : ℕ) (length count : UInt16) : Option Table :=
  if base % m.pageSize + length.toNat = 0 then none
  else Table.construct (m.mmap base length.toNat) m.new (m.address base) count

end Surroundings

/-- One object for each element, in order, from an address on. -/
inductive Walked (memory : Memory) (new : ℕ → ℕ) : ℕ → ℕ → List Structure → List Element → Prop
  | nil {i p : ℕ} : Walked memory new i p [] []
  | cons {i p : ℕ} {s : Structure} {e : Element} {ss : List Structure} {es : List Element} :
      s.object = new i → Describes memory p s e →
      Walked memory new (i + 1) (p + e.encode.length) ss es →
      Walked memory new i p (s :: ss) (e :: es)

/-- The last structure of a type. -/
def last (type : UInt8) (ss : List Structure) : Option Structure :=
  (ss.filter fun s => s.structureType = type).getLast?

/-- The bytes of the elements, one behind the other. -/
def encodeElements (elements : List Element) : List UInt8 := elements.flatMap Element.encode

/-- A result that has all structures of the table, at their places. -/
def Finds (memory : Memory) (new : ℕ → ℕ) (address : ℕ) (elements : List Element)
    (result : Option Table) : Prop :=
  ∃ table, result = some table ∧
    Walked memory new 0 address table.dmi elements ∧
    table.sockets = table.dmi.filter (fun s => s.structureType = 4) ∧
    table.bios = last 0 table.dmi ∧ table.system = last 1 table.dmi ∧
    table.chassis = last 3 table.dmi ∧
    ∀ s, last 2 table.dmi = some s → table.baseboard = some s

/-- The length of the table as the firmware tells it, in 16 bits. -/
def lengthOf (elements : List Element) : UInt16 := UInt16.ofNat (encodeElements elements).length

namespace Surroundings

/-- The memory of the process with the pages of the table. -/
def mapped (m : Surroundings) (base : ℕ) (elements : List Element) : Memory :=
  m.mmap base (lengthOf elements).toNat

/-- The constructor returns and finds all structures of the table, and the elements lie there. -/
def Walks (m : Surroundings) (base : ℕ) (elements : List Element) : Prop :=
  (m.mapped base elements).Holds (m.address base) (encodeElements elements) ∧
    Finds (m.mapped base elements) m.new (m.address base) elements
      (m.table base (lengthOf elements) (UInt16.ofNat elements.length))

/-- The table is mapped to its end: it has fewer than 65536 bytes, or something is mapped and the
rest of the table happens to lie behind it. -/
def Covers (m : Surroundings) (base : ℕ) (elements : List Element) : Prop :=
  (encodeElements elements).length < 65536 ∨
    base % m.pageSize + (lengthOf elements).toNat ≠ 0 ∧
      (m.mapped base elements).Holds (m.address base) (encodeElements elements)

end Surroundings

/-- The number of the last element of type 1, counted from `i` on. -/
def lastSystem : ℕ → List Element → Option ℕ
  | _, [] => none
  | i, e :: elements => (lastSystem (i + 1) elements).or (if e.type = 1 then some i else none)

variable {memory : Memory} {new : ℕ → ℕ} {i p : ℕ} {s : Structure} {ss : List Structure}
  {es : List Element} {table : Table} {type : UInt8}

section Walk

/-- The table with the structures of a list, in turn. -/
def Table.adds (table : Table) (ss : List Structure) : Table :=
  ss.foldl (fun table s => table.add s.structureType s) table

theorem adds_cons : table.adds (s :: ss) = (table.add s.structureType s).adds ss := rfl

/-- The loop makes the objects of its elements and puts them to their places. -/
theorem walk_of_holds (new : ℕ → ℕ) (table : Table)
    (h : memory.Holds p (es.flatMap Element.encode)) :
    ∃ ss, Table.walk memory new es.length i p table = some (table.adds ss) ∧
      Walked memory new i p ss es := by
  induction es generalizing i p table with
  | nil => exact ⟨[], rfl, .nil⟩
  | cons e es ih =>
    rw [List.flatMap_cons, Memory.holds_append] at h
    obtain ⟨hencode, hrest⟩ := h
    obtain ⟨kind, hs⟩ := factories_of_element (new i) hencode
    obtain ⟨htype, hlength, -, -⟩ := Element.holds_encode hencode
    obtain ⟨ss, hwalk, hwalked⟩ :=
      ih (table.add e.type { e.made (new i) p with kind := kind }) (i := i + 1) hrest
    refine ⟨{ e.made (new i) p with kind := kind } :: ss, ?_,
      .cons rfl ((Element.describes hencode).with_kind kind) hwalked⟩
    rw [List.length_cons, Table.walk, htype, hlength]
    simp only [Option.bind_eq_bind, Option.bind_some, hs]
    exact hwalk

theorem last_cons : last type (s :: ss) =
    (last type ss).or (if s.structureType = type then some s else none) := by
  rw [last, List.filter_cons]
  by_cases h : s.structureType = type
  · simp only [h, decide_true, if_true, List.getLast?_cons, last]
    cases (ss.filter fun s => s.structureType = type).getLast? <;> rfl
  · simp [h, last]

theorem field_adds {field : Table → Option Structure}
    (hfield : ∀ table s, field (table.add s.structureType s) =
      if s.structureType = type then some s else field table) :
    field (table.adds ss) = (last type ss).or (field table) := by
  induction ss generalizing table with
  | nil => rfl
  | cons s ss ih =>
    rw [last_cons, adds_cons, ih, hfield, Option.or_assoc]
    split_ifs <;> rfl

/-- A field that takes each structure of a type ends with the last. -/
theorem last_of_adds {field : Table → Option Structure}
    (hfield : ∀ table s, field (table.add s.structureType s) =
      if s.structureType = type then some s else field table) (hempty : field .empty = none) :
    field (Table.empty.adds ss) = last type ss := by
  rw [field_adds hfield, hempty, Option.or_none]

theorem dmi_adds : (table.adds ss).dmi = table.dmi ++ ss := by
  induction ss generalizing table with
  | nil => exact (List.append_nil _).symm
  | cons s ss ih =>
    have hadd : (table.add s.structureType s).dmi = table.dmi ++ [s] := by
      unfold Table.add
      split_ifs <;> rfl
    rw [adds_cons, ih, hadd, List.append_assoc]
    rfl

theorem sockets_adds : (table.adds ss).sockets =
    table.sockets ++ ss.filter fun s => s.structureType = 4 := by
  induction ss generalizing table with
  | nil => exact (List.append_nil _).symm
  | cons s ss ih =>
    rw [adds_cons, ih]
    by_cases h : s.structureType = 4
    · simp [Table.add, h]
    · have hadd : (table.add s.structureType s).sockets = table.sockets := by
        unfold Table.add
        split_ifs <;> rfl
      rw [hadd, List.filter_cons_of_neg (by simpa using h)]

theorem bios_adds : (Table.empty.adds ss).bios = last 0 ss :=
  last_of_adds (fun table s => by unfold Table.add; split_ifs <;> simp_all) rfl

theorem system_adds : (Table.empty.adds ss).system = last 1 ss :=
  last_of_adds (fun table s => by unfold Table.add; split_ifs <;> simp_all) rfl

theorem baseboard_adds : (Table.empty.adds ss).baseboard = last 2 ss :=
  last_of_adds (fun table s => by unfold Table.add; split_ifs <;> simp_all) rfl

theorem chassis_adds : (Table.empty.adds ss).chassis = last 3 ss :=
  last_of_adds (fun table s => by unfold Table.add; split_ifs <;> simp_all) rfl

theorem Walked.last_eq_none (h : Walked memory new i p ss es) :
    last type ss = none ↔ ∀ e ∈ es, e.type ≠ type := by
  induction h with
  | nil => exact ⟨fun _ => nofun, fun _ => rfl⟩
  | cons _ hdescribes _ ih =>
    rw [List.forall_mem_cons, ← ih, last_cons, hdescribes.structureType, Option.or_eq_none_iff]
    simp [and_comm]

/-- The system of the table is the object made for the last element of type 1. -/
theorem Walked.object_system (h : Walked memory new i p ss es) :
    (last 1 ss).map Structure.object = (lastSystem i es).map new := by
  induction h with
  | nil => rfl
  | cons hobject hdescribes _ ih =>
    rw [last_cons, lastSystem, hdescribes.structureType, Option.map_or, Option.map_or, ih]
    split_ifs
    · rw [Option.map_some, Option.map_some, hobject]
    · rfl

end Walk

section Construct

variable {address : ℕ} {elements : List Element}

theorem construct_eq (new : ℕ → ℕ) (hlt : elements.length < 65536)
    (hholds : memory.Holds address (elements.flatMap Element.encode)) :
    ∃ ss, Walked memory new 0 address ss elements ∧
      Table.construct memory new address (UInt16.ofNat elements.length) =
        match last 2 ss with
        | some _ => some (Table.empty.adds ss)
        | none => (baseBoard memory (new elements.length)
            (((last 1 ss).map Structure.object).getD 0)).map
              fun b => { Table.empty.adds ss with baseboard := some b } := by
  obtain ⟨ss, hwalk, hwalked⟩ := walk_of_holds new .empty (i := 0) hholds
  have hcount : (UInt16.ofNat elements.length).toNat = elements.length := by
    rw [UInt16.toNat_ofNat']
    exact Nat.mod_eq_of_lt hlt
  refine ⟨ss, hwalked, ?_⟩
  rw [Table.construct, hcount, hwalk]
  simp only [Option.bind_eq_bind, Option.bind_some, baseboard_adds, system_adds]
  cases last 2 ss with
  | some _ => rfl
  | none =>
    rw [Option.map_eq_bind]
    cases last 1 ss <;> rfl

/-- What the loop leaves is right, whichever base board is put in for one that is missing. -/
theorem finds_of_walked {baseboard : Option Structure}
    (h : Walked memory new 0 address ss elements)
    (hbaseboard : ∀ s, last 2 ss = some s → baseboard = some s) :
    Finds memory new address elements
      (some { Table.empty.adds ss with baseboard := baseboard }) := by
  have hdmi : (Table.empty.adds ss).dmi = ss := dmi_adds
  refine ⟨_, rfl, ?_⟩
  dsimp only
  rw [hdmi]
  exact ⟨h, sockets_adds, bios_adds, system_adds, chassis_adds, hbaseboard⟩

/-- Of a table that is mapped all structures are found if and only if a base board is among them,
or the bytes of the object of the last system can themselves be read as a structure. -/
theorem finds_iff (hlt : elements.length < 65536)
    (hsystem : ∃ e ∈ elements, e.type = 1 ∨ e.type = 2)
    (hholds : memory.Holds address (encodeElements elements)) :
    Finds memory new address elements
      (Table.construct memory new address (UInt16.ofNat elements.length)) ↔
      (∃ e ∈ elements, e.type = 2) ∨
        ∃ i, lastSystem 0 elements = some i ∧ Parsable memory (new i) := by
  obtain ⟨ss, hwalked, hconstruct⟩ := construct_eq new hlt hholds
  rw [hconstruct]
  cases hlast : last 2 ss with
  | some s =>
    have hboard : ∃ e ∈ elements, e.type = 2 := by
      by_contra hno
      have := hwalked.last_eq_none.mpr fun e he htype => hno ⟨e, he, htype⟩
      rw [hlast] at this
      cases this
    have hfinds := finds_of_walked hwalked fun x hx => baseboard_adds.trans hx
    exact iff_of_true hfinds (.inl hboard)
  | none =>
    have hno : ∀ e ∈ elements, e.type ≠ 2 := hwalked.last_eq_none.mp hlast
    obtain ⟨e, he, htype⟩ := hsystem
    have hsome : last 1 ss ≠ none := fun hnone =>
      hwalked.last_eq_none.mp hnone e he (htype.resolve_right (hno e he))
    obtain ⟨s, hs⟩ := Option.ne_none_iff_exists'.mp hsome
    have hobject := hwalked.object_system
    rw [hs, Option.map_some] at hobject
    obtain ⟨i, hi, hnew⟩ := Option.map_eq_some_iff.mp hobject.symm
    rw [hs, Option.map_some, Option.getD_some, ← hnew]
    have hiff := baseBoard_isSome_iff memory (new elements.length) (new i)
    constructor
    · rintro ⟨table, htable, -⟩
      obtain ⟨b, hb, -⟩ := Option.map_eq_some_iff.mp htable
      exact .inr ⟨i, hi, hiff.mp (hb ▸ rfl)⟩
    · rintro (⟨e, he, htype⟩ | ⟨j, hj, hparsable⟩)
      · exact absurd htype (hno e he)
      · obtain rfl := Option.some.inj (hi.symm.trans hj)
        obtain ⟨b, hb⟩ := Option.isSome_iff_exists.mp (hiff.mpr hparsable)
        rw [hb, Option.map_some]
        exact finds_of_walked hwalked fun x hx => absurd hx (hlast ▸ nofun)

end Construct

namespace Surroundings

variable {m : Surroundings} {base : ℕ} {elements : List Element}

theorem le_roundUp (m : Surroundings) (length : ℕ) : length ≤ m.roundUp length := by
  have hpos := m.page_pos
  have hlt := Nat.lt_div_mul_add (a := length + m.pageSize - 1) hpos
  unfold roundUp
  omega

/-- What fits the length is mapped as it is in physical memory. -/
theorem holds_mmap {bytes : List UInt8} {length : ℕ} (h : Library.Holds m.physical base bytes)
    (hlength : bytes.length ≤ length) : (m.mmap base length).Holds (m.address base) bytes := by
  have hpages := m.le_roundUp (base % m.pageSize + length)
  have hpage := Nat.mod_le base m.pageSize
  refine Memory.holds_of_read fun i hi => ?_
  have hread := Library.Holds.get h hi
  have hin : m.place ≤ m.place + base % m.pageSize + i ∧ m.place + base % m.pageSize + i <
      m.place + m.roundUp (base % m.pageSize + length) := by omega
  have hindex : m.place + base % m.pageSize + i - m.place = base % m.pageSize + i := by omega
  have hphysical : base - base % m.pageSize + (base % m.pageSize + i) = base + i := by omega
  rw [mmap, address, Memory.write]
  simp only [List.length_map, List.length_range]
  rw [if_pos hin, hindex, List.getElem?_map, List.getElem?_range (by omega), Option.map_some,
    hphysical, hread]

theorem Covers.holds (h : m.Covers base elements)
    (hphysical : Library.Holds m.physical base (encodeElements elements)) :
    (m.mapped base elements).Holds (m.address base) (encodeElements elements) := by
  rcases h with hlt | ⟨-, hholds⟩
  · have hlength : (lengthOf elements).toNat = (encodeElements elements).length := by
      rw [lengthOf, UInt16.toNat_ofNat']
      exact Nat.mod_eq_of_lt hlt
    exact holds_mmap hphysical hlength.ge
  · exact hholds

theorem encodeElements_ne_nil (h : ∃ e ∈ elements, e.type = 1 ∨ e.type = 2) :
    0 < (encodeElements elements).length := by
  obtain ⟨e, he, -⟩ := h
  obtain ⟨before, after, rfl⟩ := List.append_of_mem he
  simp [encodeElements, Element.encode]

/-- The constructor finds all structures if and only if the table is mapped to its end, and a base
board is among them or the bytes of the object of the last system can themselves be read as a
structure. -/
theorem walks_iff (hlt : elements.length < 65536)
    (hsystem : ∃ e ∈ elements, e.type = 1 ∨ e.type = 2)
    (hphysical : Library.Holds m.physical base (encodeElements elements)) :
    m.Walks base elements ↔ m.Covers base elements ∧
      ((∃ e ∈ elements, e.type = 2) ∨
        ∃ i, lastSystem 0 elements = some i ∧ Parsable (m.mapped base elements) (m.new i)) := by
  constructor
  · rintro ⟨hholds, hfinds⟩
    have hsome : base % m.pageSize + (lengthOf elements).toNat ≠ 0 := by
      intro hzero
      obtain ⟨t, ht, -⟩ := hfinds
      rw [table, if_pos hzero] at ht
      cases ht
    rw [table, if_neg hsome] at hfinds
    exact ⟨.inr ⟨hsome, hholds⟩, (finds_iff hlt hsystem hholds).mp hfinds⟩
  · rintro ⟨hcovers, hboard⟩
    have hholds := hcovers.holds hphysical
    have hsome : base % m.pageSize + (lengthOf elements).toNat ≠ 0 := by
      rcases hcovers with hlt | ⟨hsome, -⟩
      · have hpos := encodeElements_ne_nil hsystem
        rw [lengthOf, UInt16.toNat_ofNat']
        omega
      · exact hsome
    refine ⟨hholds, ?_⟩
    rw [table, if_neg hsome]
    exact (finds_iff hlt hsystem hholds).mpr hboard

end Surroundings

/-- An object in memory: the pointer to the table of its class, those to the structure and to the
strings, the type, the header length and what fills it up. -/
def systemObject : List UInt8 := [
  0x38, 0x5D, 0x57, 0x55, 0x55, 0x55, 0, 0,
  0x00, 0x10, 0, 0, 0, 0, 0, 0,
  0xA0, 0xC2, 0x59, 0x55, 0x55, 0x55, 0, 0,
  1, 4, 0, 0, 0, 0, 0, 0]

/-- A table at `0xE0010`, whose page is mapped at `0x8000`, and an object in the last bytes of a
heap that ends at `0x3000`. -/
def surroundings (bytes : List UInt8) : Surroundings where
  physical p := bytes.getD (p - 0xE0010) 0
  memory := Memory.empty.write 0x2FE0 systemObject
  pageSize := 2 ^ 12
  place := 0x8000
  new _ := 0x2FE0
  page_pos := Nat.two_pow_pos 12

/-- A system without strings. -/
def systemElement : Element where
  type := 1
  body := [0, 1]
  strings := []
  header := by decide
  short := by decide
  listable := nofun
  few := by decide
  numbers := nofun

/-- A base board with the string `X`. -/
def boardElement : Element where
  type := 2
  body := [0, 2, 1]
  strings := [[88]]
  header := by decide
  short := by decide
  listable := by decide
  few := by decide
  numbers := nofun

theorem walks_iff_board :
    (surroundings [1, 4, 0, 1, 0, 0, 2, 5, 0, 2, 1, 88, 0, 0]).Walks 0xE0010
      [systemElement, boardElement] := by
  have hphysical : Library.Holds
      (surroundings [1, 4, 0, 1, 0, 0, 2, 5, 0, 2, 1, 88, 0, 0]).physical 0xE0010
      (encodeElements [systemElement, boardElement]) := by decide
  have hsystem : ∃ e ∈ [systemElement, boardElement], e.type = 1 ∨ e.type = 2 :=
    ⟨systemElement, List.mem_cons_self, .inl rfl⟩
  exact (Surroundings.walks_iff (by decide) hsystem hphysical).mpr
    ⟨.inl (by decide), .inl ⟨boardElement, List.mem_cons_of_mem _ List.mem_cons_self, rfl⟩⟩

theorem not_walks : ¬ (surroundings [1, 4, 0, 1, 0, 0]).Walks 0xE0010 [systemElement] := by
  rintro ⟨-, table, htable, -⟩
  have hnone : ((surroundings [1, 4, 0, 1, 0, 0]).table 0xE0010 6 1).isNone := by
    decide +kernel
  have hlength : lengthOf [systemElement] = 6 := by decide
  rw [hlength] at htable
  rw [show (1 : UInt16) = UInt16.ofNat [systemElement].length from rfl, htable] at hnone
  cases hnone

end Redx.Smbios
