import Redx.Smbios.Strings

/-!
# The structures of the table

An object is made of the bytes of a structure: its type, its length, its formatted area and its
strings. The class of the object is the one of the type.
-/
namespace Redx.Smbios
open Library

/-- The class of an object, with the strings that its constructor looks up. -/
inductive Kind where
  | base
  | biosInformation (vendor version releaseDate : Option ℕ)
  | system
  | baseBoard
  | chassis
  | processor
  deriving DecidableEq, Repr

/-- An object of `SMBIOS::Structure` or of a class under it, and its own address. -/
structure Structure where
  object : ℕ
  data : ℕ
  structureType : UInt8
  headerLength : UInt8
  strings : StringList
  kind : Kind
  deriving DecidableEq, Repr

/-- `Structure::Structure` -/
def Structure.construct (memory : Memory) (object address : ℕ) : Option Structure := do
  let structureType ← memory.read address
  let headerLength ← memory.read (address + 1)
  let strings ← StringList.construct memory (address + headerLength.toNat)
  return ⟨object, address, structureType, headerLength, strings, .base⟩

def Structure.next (s : Structure) : ℕ := s.strings.endAddress

/-- `Structure::string`: NULL, or a string. There is no result for a number that leads beyond the
array. -/
def Structure.string (memory : Memory) (s : Structure) (n : ℕ) : Option (Option ℕ) := do
  let number ← memory.read (s.data + n)
  let index := (number - 1).toNat
  if s.strings.count < index then return none
  else s.strings.strings[index]?.map some

/-- What makes the object at an address from the structure at another. -/
abbrev Factory := Memory → ℕ → ℕ → Option Structure

def biosInformation : Factory := fun memory object address => do
  let s ← Structure.construct memory object address
  let vendor ← s.string memory 0x4
  let version ← s.string memory 0x5
  let releaseDate ← s.string memory 0x8
  return { s with kind := .biosInformation vendor version releaseDate }

def derived (kind : Kind) : Factory := fun memory object address => do
  let s ← Structure.construct memory object address
  return { s with kind := kind }

def system : Factory := derived .system

/-- `BaseBoard::BaseBoard( void * )` -/
def baseBoard : Factory := derived .baseBoard

def chassis : Factory := derived .chassis

def processor : Factory := derived .processor

/-- The factories as `Header::locate` leaves them. -/
def factories (type : UInt8) : Factory :=
  if type = 0 then biosInformation
  else if type = 1 then system
  else if type = 2 then baseBoard
  else if type = 3 then chassis
  else if type = 4 then processor
  else Structure.construct

/-- A well-formed structure: the type, the formatted area behind the first two bytes and the
strings. The strings that its constructor looks up have numbers that are zero or in the list. -/
structure Element where
  type : UInt8
  body : List UInt8
  strings : List (List UInt8)
  header : 2 ≤ body.length
  short : body.length + 2 < 256
  listable : Listable strings
  few : strings.length < 255
  numbers : type = 0 → ∀ n ∈ [4, 5, 8], ∃ number, body[n - 2]? = some number ∧
    number.toNat ≤ strings.length

/-- The bytes of a structure. -/
def Element.encode (e : Element) : List UInt8 :=
  e.type :: UInt8.ofNat (e.body.length + 2) ::
    (e.body ++ (encodeStrings e.strings ++ if e.strings = [] then [0] else []))

/-- The object is positioned at the element, and its strings are those of the element. -/
structure Describes (memory : Memory) (p : ℕ) (s : Structure) (e : Element) : Prop where
  data : s.data = p
  structureType : s.structureType = e.type
  headerLength : s.headerLength.toNat = e.body.length + 2
  count : s.strings.count = e.strings.length
  strings : List.Forall₂ memory.StringAt s.strings.strings e.strings

/-- The bytes at an address can be read as those of a structure. -/
def Parsable (memory : Memory) (a : ℕ) : Prop :=
  ∃ type headerLength strings, memory.read a = some type ∧
    memory.read (a + 1) = some headerLength ∧ Listable strings ∧
    memory.Holds (a + headerLength.toNat) (encodeStrings strings)

/-- A structure with its strings, and what its constructor looks up, are mapped. The index of a
string is never the one behind the last. -/
structure Lies (memory : Memory) (p : ℕ) (type headerLength : UInt8)
    (strings : List (List UInt8)) : Prop where
  read_type : memory.read p = some type
  read_length : memory.read (p + 1) = some headerLength
  listable : Listable strings
  holds : memory.Holds (p + headerLength.toNat) (encodeStrings strings)
  numbers : type = 0 → ∀ n ∈ [4, 5, 8], ∃ number, memory.read (p + n) = some number ∧
    (number - 1).toNat ≠ strings.length

/-- Where the strings of a structure end. -/
def behind (p : ℕ) (headerLength : UInt8) (strings : List (List UInt8)) : ℕ :=
  p + headerLength.toNat + (encodeStrings strings).length + if strings.length = 0 then 1 else 0

/-- The object that the base class makes of a structure. -/
def based (object p : ℕ) (type headerLength : UInt8) (strings : List (List UInt8)) : Structure where
  object := object
  data := p
  structureType := type
  headerLength := headerLength
  strings := ⟨strings.length, pointers (p + headerLength.toNat) strings,
    behind p headerLength strings⟩
  kind := .base

variable {memory : Memory} {p object : ℕ} {s : Structure} {e : Element}
  {type headerLength number : UInt8} {strings : List (List UInt8)}

theorem toNat_sub_one (hne : number ≠ 0) : (number - 1).toNat = number.toNat - 1 := by
  refine UInt8.toNat_sub_of_le _ _ ?_
  rw [UInt8.le_iff_toNat_le]
  exact Nat.pos_of_ne_zero fun h => hne (UInt8.toNat_inj.mp h)

theorem string_of_read {n : ℕ} (hread : memory.read (s.data + n) = some number) :
    s.string memory n = if s.strings.count < (number - 1).toNat then some none
      else s.strings.strings[(number - 1).toNat]?.map some := by
  rw [Structure.string, hread]
  rfl

/-- There is a result unless the index is the count. -/
theorem string_isSome_iff {n : ℕ} (hlength : s.strings.strings.length = s.strings.count) :
    (s.string memory n).isSome ↔ ∃ number, memory.read (s.data + n) = some number ∧
      (number - 1).toNat ≠ s.strings.count := by
  cases hread : memory.read (s.data + n) with
  | none => simp [Structure.string, hread]
  | some number =>
    rw [string_of_read hread]
    simp only [Option.some.injEq, exists_eq_left']
    by_cases hlt : s.strings.count < (number - 1).toNat
    · rw [if_pos hlt]
      exact iff_of_true rfl (Nat.ne_of_gt hlt)
    · rw [if_neg hlt, Option.isSome_map, isSome_getElem?, hlength]
      omega

theorem construct_of_lies (h : Lies memory p type headerLength strings) :
    Structure.construct memory object p = some (based object p type headerLength strings) := by
  rw [Structure.construct, h.read_type, h.read_length]
  simp only [Option.bind_eq_bind, Option.bind_some, construct_of_holds h.listable h.holds]
  rfl

theorem biosInformation_of_lies (h : Lies memory p 0 headerLength strings) :
    ∃ kind, biosInformation memory object p =
      some { based object p 0 headerLength strings with kind := kind } := by
  have hlookup : ∀ n ∈ [4, 5, 8],
      ∃ result, (based object p 0 headerLength strings).string memory n = some result := by
    intro n hn
    exact Option.isSome_iff_exists.mp
      ((string_isSome_iff (length_pointers ..)).mpr (h.numbers rfl n hn))
  obtain ⟨vendor, hvendor⟩ := hlookup 4 (by decide)
  obtain ⟨version, hversion⟩ := hlookup 5 (by decide)
  obtain ⟨releaseDate, hreleaseDate⟩ := hlookup 8 (by decide)
  refine ⟨.biosInformation vendor version releaseDate, ?_⟩
  rw [biosInformation, construct_of_lies h]
  simp only [Option.bind_eq_bind, Option.bind_some, hvendor, hversion, hreleaseDate]
  rfl

/-- Every factory makes the object of a structure. -/
theorem factories_of_lies (object : ℕ) (h : Lies memory p type headerLength strings) :
    ∃ kind, factories type memory object p =
      some { based object p type headerLength strings with kind := kind } := by
  have hderived : ∀ kind, derived kind memory object p =
      some { based object p type headerLength strings with kind := kind } := by
    intro kind
    rw [derived, construct_of_lies h]
    rfl
  unfold factories
  split_ifs with htype
  · subst htype
    exact biosInformation_of_lies h
  · exact ⟨_, hderived _⟩
  · exact ⟨_, hderived _⟩
  · exact ⟨_, hderived _⟩
  · exact ⟨_, hderived _⟩
  · exact ⟨_, construct_of_lies h⟩

/-- The object that the base class makes of an element. -/
def Element.made (e : Element) (object p : ℕ) : Structure where
  object := object
  data := p
  structureType := e.type
  headerLength := UInt8.ofNat (e.body.length + 2)
  strings := ⟨e.strings.length, pointers (p + 2 + e.body.length) e.strings, p + e.encode.length⟩
  kind := .base

theorem Element.headerLength_toNat (e : Element) :
    (UInt8.ofNat (e.body.length + 2)).toNat = e.body.length + 2 := by
  rw [UInt8.toNat_ofNat']
  exact Nat.mod_eq_of_lt e.short

theorem Element.length_encode (e : Element) : e.encode.length =
    2 + e.body.length + (encodeStrings e.strings).length +
      if e.strings.length = 0 then 1 else 0 := by
  rw [Element.encode]
  by_cases h : e.strings = []
  · simp [h]
    omega
  · simp [h]
    omega

/-- The parts of an element in memory. -/
theorem Element.holds_encode (h : memory.Holds p e.encode) :
    memory.read p = some e.type ∧
    memory.read (p + 1) = some (UInt8.ofNat (e.body.length + 2)) ∧
    memory.Holds (p + 2) e.body ∧
    memory.Holds (p + 2 + e.body.length) (encodeStrings e.strings) := by
  obtain ⟨htype, hlength, hrest⟩ := h
  rw [Memory.holds_append, Memory.holds_append] at hrest
  exact ⟨htype, hlength, hrest.1, hrest.2.1⟩

theorem Element.made_eq (e : Element) (object p : ℕ) : e.made object p =
    based object p e.type (UInt8.ofNat (e.body.length + 2)) e.strings := by
  have haddress : p + (e.body.length + 2) = p + 2 + e.body.length := by omega
  have hend : p + e.encode.length = p + 2 + e.body.length + (encodeStrings e.strings).length +
      if e.strings.length = 0 then 1 else 0 := by
    rw [e.length_encode]
    omega
  rw [Element.made, based, behind, e.headerLength_toNat, haddress, hend]

/-- Numbers of strings in the list, and 0, are not the one behind the last. -/
theorem Element.lies (h : memory.Holds p e.encode) :
    Lies memory p e.type (UInt8.ofNat (e.body.length + 2)) e.strings := by
  obtain ⟨htype, hlength, hbody, hstrings⟩ := Element.holds_encode h
  have haddress : p + (UInt8.ofNat (e.body.length + 2)).toNat = p + 2 + e.body.length := by
    rw [e.headerLength_toNat]
    omega
  refine ⟨htype, hlength, e.listable, haddress ▸ hstrings, fun hzero n hn => ?_⟩
  obtain ⟨number, hnumber, hle⟩ := e.numbers hzero n hn
  have hge : ∀ n ∈ [4, 5, 8], 2 ≤ n := by decide
  obtain ⟨hlt, hget⟩ := List.getElem?_eq_some_iff.mp hnumber
  have hread := hbody.read hlt
  rw [hget, Nat.add_assoc, Nat.add_sub_cancel' (hge n hn)] at hread
  refine ⟨number, hread, ?_⟩
  have hfew := e.few
  by_cases hzero : number = 0
  · have hindex : (number - 1).toNat = 255 := by rw [hzero]; rfl
    omega
  · have hpos : number.toNat ≠ 0 := fun h => hzero (UInt8.toNat_inj.mp h)
    rw [toNat_sub_one hzero]
    omega

theorem Element.describes (h : memory.Holds p e.encode) :
    Describes memory p (e.made object p) e where
  data := rfl
  structureType := rfl
  headerLength := e.headerLength_toNat
  count := rfl
  strings := stringAt_pointers e.listable (Element.holds_encode h).2.2.2

/-- Every factory makes the object of its element. -/
theorem factories_of_element (object : ℕ) (h : memory.Holds p e.encode) :
    ∃ kind, factories e.type memory object p = some { e.made object p with kind := kind } := by
  rw [e.made_eq]
  exact factories_of_lies object (Element.lies h)

theorem Describes.with_kind (h : Describes memory p s e) (kind : Kind) :
    Describes memory p { s with kind := kind } e :=
  ⟨h.data, h.structureType, h.headerLength, h.count, h.strings⟩

/-- The constructor of a base board returns exactly where a structure can be read. -/
theorem baseBoard_isSome_iff (memory : Memory) (object a : ℕ) :
    (baseBoard memory object a).isSome ↔ Parsable memory a := by
  have hisSome : (baseBoard memory object a).isSome ↔
      (Structure.construct memory object a).isSome := by
    rw [baseBoard, derived]
    cases Structure.construct memory object a <;> rfl
  rw [hisSome, Structure.construct, Parsable]
  cases htype : memory.read a with
  | none => simp
  | some type =>
    cases hlength : memory.read (a + 1) with
    | none => simp
    | some headerLength =>
      have hiff := construct_isSome_iff memory (a + headerLength.toNat)
      cases hlist : StringList.construct memory (a + headerLength.toNat) with
      | none => simpa [hlist] using hiff
      | some list => simpa [hlist] using hiff

end Redx.Smbios
