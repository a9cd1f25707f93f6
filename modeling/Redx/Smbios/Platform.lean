import Redx.Library.Bytes
import Redx.Smbios.Image

/-!
# The platform file

`netmgr` looks for the entry point of the SMBIOS in the 64 KiB below 1 MiB, maps the table that it
tells, and evaluates the script that the strings of the base board and of the system name.
-/
namespace Redx.Smbios
open Library

/-- Physical memory, the address that the table is mapped at and those of the objects, which are
not in the 64 KiB that a table can have. -/
structure Machine where
  physical : ℕ → UInt8
  base : ℕ
  new : ℕ → ℕ
  mapped : 0 < base
  apart : ∀ i, new i < base ∨ base + 0xFFFF ≤ new i

/-- `_SM_` -/
def anchor : List UInt8 := [95, 83, 77, 95]

/-- The members that `Header::probe` sets for the table. -/
structure Header where
  address : UInt32
  length : UInt16
  number : UInt16

/-- The UUID of the system that is reported, and the file that is evaluated; when there is none,
that is reported. -/
structure Started where
  uuid : List UInt8
  file : Option (List UInt8)

/-- `/etc/netmgr/platform/` -/
def directory : List UInt8 := [
  47, 101, 116, 99, 47, 110, 101, 116, 109, 103, 114, 47, 112, 108, 97, 116, 102, 111, 114, 109, 47]

/-- `INVALID` -/
def invalid : List UInt8 := [73, 78, 86, 65, 76, 73, 68]

/-- A space or a slash is replaced. -/
def plain (c : UInt8) : UInt8 := if c = 32 then 45 else if c = 47 then 45 else c

/-- `sanitize`, of NULL or of a string. -/
def sanitize : Option (List UInt8) → List UInt8
  | none => invalid
  | some s => s.map plain

/-- `sanitize( s )`, of a string in memory. -/
def sanitizeAt (memory : Memory) : Option ℕ → Option (List UInt8)
  | none => some (sanitize none)
  | some p => (memory.string p).map fun s => sanitize (some s)

/-- `snprintf( filename, sizeof(filename), … )` -/
def filename (text : List UInt8) : List UInt8 := text.take 255

/-- `memcpy`, of what is read. -/
def memcpy (memory : Memory) : ℕ → ℕ → Option (List UInt8)
  | _, 0 => some []
  | p, n + 1 => do
    let b ← memory.read p
    let bytes ← memcpy memory (p + 1) n
    return b :: bytes

/-- `LoadPlatformFile`, up to the file that it evaluates. -/
def loadPlatformFile (memory : Memory) (readable : List UInt8 → Bool)
    (system baseboard : Structure) : Option (Option (List UInt8)) := do
  let systemProductName ← sanitizeAt memory (← system.string memory 0x5)
  let baseBoardProductName ← sanitizeAt memory (← baseboard.string memory 0x5)
  let baseBoardVersion ← sanitizeAt memory (← baseboard.string memory 0x6)
  let revision := filename (directory ++ baseBoardProductName ++ 45 :: baseBoardVersion)
  if readable revision then return some revision
  else
    let product := (filename (directory ++ systemProductName)).map fun c => if c = 32 then 45 else c
    if readable product then return some product
    else return none

namespace Machine

/-- `Header::locate`: the first paragraph with the anchor. The last paragraph is not looked at. -/
def locate (m : Machine) : Option ℕ :=
  ((List.range 0xFFF).map fun i => 0xF0000 + 16 * i).find? fun p =>
    m.physical p = 95 ∧ m.physical (p + 1) = 83 ∧ m.physical (p + 2) = 77 ∧ m.physical (p + 3) = 95

/-- `Header::probe`, up to the table. -/
def probe (m : Machine) (p : ℕ) : Header where
  length := UInt16.ofNat (valueAt m.physical (p + 0x16) 2)
  address := UInt32.ofNat (valueAt m.physical (p + 0x18) 4)
  number := UInt16.ofNat (valueAt m.physical (p + 0x1C) 2)

/-- The bytes that are mapped for the table. -/
def image (m : Machine) (header : Header) : List UInt8 :=
  (List.range header.length.toNat).map fun i => m.physical (header.address.toNat + i)

def memory (m : Machine) (header : Header) : Memory :=
  Memory.empty.write m.base (m.image header)

/-- `AppInit`, from `Header::locate` to `LoadPlatformFile`. A reference through NULL has no
result. -/
def start (m : Machine) (readable : List UInt8 → Bool) : Option Started := do
  let header := m.probe (← m.locate)
  let memory := m.memory header
  let table ← Table.construct memory m.new m.base header.number
  let system ← table.system
  let uuid ← memcpy memory (system.data + 8) 16
  let baseboard ← table.baseboard
  let file ← loadPlatformFile memory readable system baseboard
  return ⟨uuid, file⟩

end Machine

/-- An entry point: the table, and the bytes between the anchor and these fields. -/
structure EntryPoint extends Header where
  rest : List UInt8
  length_rest : rest.length = 18

def EntryPoint.encode (e : EntryPoint) : List UInt8 :=
  anchor ++ (e.rest ++ (bytesOf 2 e.length.toNat ++ (bytesOf 4 e.address.toNat ++
    bytesOf 2 e.number.toNat)))

/-- The firmware tells a table of these structures in the first paragraph with the anchor. A
system has its UUID, and a base board its version. -/
structure Publishes (m : Machine) (elements : List Element) : Prop where
  entryPoint : ∃ e : EntryPoint, ∃ i < 0xFFF, Holds m.physical (0xF0000 + 16 * i) e.encode ∧
    (∀ j < i, ¬ Holds m.physical (0xF0000 + 16 * j) anchor) ∧
    e.number.toNat = elements.length ∧
    e.length.toNat = (elements.flatMap Element.encode).length ∧
    Holds m.physical e.address.toNat (elements.flatMap Element.encode)
  system : ∀ e ∈ elements, e.type = 1 → 22 ≤ e.body.length
  baseboard : ∀ e ∈ elements, e.type = 2 → 5 ≤ e.body.length

/-- The last element of a type. -/
def lastElement (type : UInt8) (elements : List Element) : Option Element :=
  (elements.filter fun e => e.type = type).getLast?

/-- The number of the string that stands at an offset. -/
def Element.number (e : Element) (n : ℕ) : UInt8 := e.body.getD (n - 2) 0

/-- The string that stands at an offset, as part of a name of a file. -/
def Element.name (e : Element) (n : ℕ) : List UInt8 := sanitize (numbered e.strings (e.number n))

/-- The files for a platform, the most specific first. -/
def platformFiles (system baseboard : Element) : List (List UInt8) :=
  [directory ++ baseboard.name 5 ++ 45 :: baseboard.name 6, directory ++ system.name 5]

/-- Whichever files there are, the UUID of the last system is reported and the most specific file
for its platform is evaluated. -/
def Starts (m : Machine) (elements : List Element) : Prop :=
  ∃ system baseboard, lastElement 1 elements = some system ∧
    lastElement 2 elements = some baseboard ∧ ∀ readable, m.start readable =
      some ⟨(system.body.drop 6).take 16, (platformFiles system baseboard).find? readable⟩

/-- The number does not lead to the place behind the last string. -/
def Element.Numbered (e : Element) (n : ℕ) : Prop := (e.number n).toNat ≠ e.strings.length + 1

instance (e : Element) (n : ℕ) : Decidable (e.Numbered n) := inferInstanceAs (Decidable (_ ≠ _))

/-- The object was made of the bytes of the element. -/
structure Of (memory : Memory) (s : Structure) (e : Element) : Prop where
  describes : Describes memory s.data s e
  holds : memory.Holds s.data e.encode

variable {memory : Memory} {m : Machine} {s system baseboard : Structure} {e board : Element}
  {es : List Element} {ss : List Structure} {type : UInt8} {n i p : ℕ} {new : ℕ → ℕ}
  {readable : List UInt8 → Bool}

section Names

theorem notMem_sanitize (string : Option (List UInt8)) : 32 ∉ sanitize string := by
  cases string with
  | none => decide
  | some string =>
    intro h
    obtain ⟨c, -, hc⟩ := List.mem_map.mp h
    unfold plain at hc
    split_ifs at hc with h1
    · cases hc
    · cases hc
    · exact h1 hc

theorem Of.read (h : Of memory s e) (hn : 2 ≤ n) (hlt : n - 2 < e.body.length) :
    memory.read (s.data + n) = some (e.number n) := by
  have hread := (Element.holds_encode h.holds).2.2.1.read hlt
  rw [Nat.add_assoc, Nat.add_sub_cancel' hn] at hread
  rw [hread, Element.number, List.getD_eq_getElem?_getD, List.getElem?_eq_getElem hlt,
    Option.getD_some]

/-- A string is looked up and sanitized, or what is behind the last is read. -/
theorem Of.sanitizeAt (h : Of memory s e) (hn : 2 ≤ n) (hlt : n - 2 < e.body.length) :
    (s.string memory n).bind (sanitizeAt memory) =
      if e.Numbered n then some (e.name n) else none := by
  have hfew := e.few
  have hlength := h.describes.strings.length_eq
  rw [string_of_read (h.read hn hlt), h.describes.count, Element.name, numbered]
  by_cases hzero : e.number n = 0
  · have hindex : ((0 : UInt8) - 1).toNat = 255 := rfl
    have hnumbered : e.Numbered n := by
      rw [Element.Numbered, hzero]
      exact (Nat.succ_ne_zero _).symm
    rw [if_pos hnumbered, hzero, hindex, if_pos hfew, if_pos rfl]
    rfl
  · have hpos : (e.number n).toNat ≠ 0 := fun h => hzero (UInt8.toNat_inj.mp h)
    rw [if_neg hzero, toNat_sub_one hzero]
    rcases Nat.lt_trichotomy ((e.number n).toNat - 1) e.strings.length with hlt | heq | hgt
    · have hnumbered : e.Numbered n := by
        rw [Element.Numbered]
        omega
      have hget := List.getElem?_eq_getElem hlt
      obtain ⟨p, hp, hstring⟩ := exists_pointer h.describes.strings hget
      rw [if_pos hnumbered, hget, if_neg (Nat.not_lt_of_lt hlt), hp]
      simp [Smbios.sanitizeAt, Memory.string_of_stringAt hstring]
    · have hnumbered : ¬ e.Numbered n := by
        rw [Element.Numbered]
        omega
      rw [if_neg hnumbered, heq, if_neg (Nat.lt_irrefl _),
        List.getElem?_eq_none (Nat.le_of_eq hlength)]
      rfl
    · have hnumbered : e.Numbered n := by
        rw [Element.Numbered]
        omega
      rw [if_pos hnumbered, List.getElem?_eq_none (Nat.le_of_lt hgt), if_pos hgt]
      rfl

/-- There are no more spaces in the name of the product. -/
theorem map_filename (string : Option (List UInt8)) :
    (filename (directory ++ sanitize string)).map (fun c => if c = 32 then 45 else c) =
      filename (directory ++ sanitize string) := by
  have hdirectory : 32 ∉ directory := by decide
  conv_rhs => rw [← List.map_id (filename (directory ++ sanitize string))]
  refine List.map_congr_left fun c hc => if_neg ?_
  rintro rfl
  rcases List.mem_append.mp (List.mem_of_mem_take hc) with h | h
  · exact hdirectory h
  · exact notMem_sanitize string h

/-- The three names are looked up, and the first file of the two is taken. -/
theorem loadPlatformFile_eq (hs : Of memory s e) (hsystem : 5 ≤ e.body.length)
    (hb : Of memory baseboard board) (hboard : 5 ≤ board.body.length) :
    loadPlatformFile memory readable s baseboard =
      if e.Numbered 5 ∧ board.Numbered 5 ∧ board.Numbered 6 then
        some (((platformFiles e board).map filename).find? readable) else none := by
  have hproduct := hs.sanitizeAt (n := 5) (by decide) (by omega)
  have hname := hb.sanitizeAt (n := 5) (by decide) (by omega)
  have hversion := hb.sanitizeAt (n := 6) (by decide) (by omega)
  have hmap : (filename (directory ++ e.name 5)).map (fun c => if c = 32 then 45 else c) =
      filename (directory ++ e.name 5) := map_filename _
  rw [loadPlatformFile]
  simp only [Option.bind_eq_bind, ← Option.bind_assoc, hproduct, hname, hversion]
  by_cases h : e.Numbered 5 ∧ board.Numbered 5 ∧ board.Numbered 6
  · rw [if_pos h, if_pos h.1, if_pos h.2.1, if_pos h.2.2]
    simp only [Option.bind_some, hmap, platformFiles, List.map_cons, List.map_nil, List.find?_cons,
      List.find?_nil]
    cases readable (filename (directory ++ board.name 5 ++ 45 :: board.name 6)) <;>
      cases readable (filename (directory ++ e.name 5)) <;> rfl
  · rw [if_neg h]
    by_cases h1 : e.Numbered 5
    · by_cases h2 : board.Numbered 5
      · rw [if_pos h1, if_pos h2, if_neg fun h3 => h ⟨h1, h2, h3⟩]
        rfl
      · rw [if_pos h1, if_neg h2]
        rfl
    · rw [if_neg h1]
      rfl

/-- Names of files are cut, and then there are other files, unless they are short. -/
theorem filename_find?_iff {files : List (List UInt8)} :
    (∀ readable, (files.map filename).find? readable = files.find? readable) ↔
      ∀ file ∈ files, file.length < 256 := by
  constructor
  · intro h file hfile
    by_contra hlong
    have hfind : files.find? (· = file) = none := by
      rw [← h, List.find?_eq_none]
      intro cut hcut heq
      obtain ⟨f, -, rfl⟩ := List.mem_map.mp hcut
      have hlength : (filename f).length ≤ 255 := List.length_take_le ..
      rw [of_decide_eq_true heq] at hlength
      omega
    exact List.find?_eq_none.mp hfind file hfile (decide_eq_true rfl)
  · intro h readable
    have hmap : files.map filename = files := by
      conv_rhs => rw [← List.map_id files]
      exact List.map_congr_left fun file hfile =>
        List.take_of_length_le (Nat.le_of_lt_succ (h file hfile))
    rw [hmap]

end Names

section Tables

theorem lastElement_cons : lastElement type (e :: es) =
    (lastElement type es).or (if e.type = type then some e else none) := by
  rw [lastElement, List.filter_cons]
  by_cases h : e.type = type
  · simp only [h, decide_true, if_true, List.getLast?_cons, lastElement]
    cases (es.filter fun e => e.type = type).getLast? <;> rfl
  · simp [h, lastElement]

theorem lastElement_mem (h : lastElement type es = some e) : e ∈ es ∧ e.type = type := by
  have hmem := List.mem_filter.mp (List.mem_of_getLast? h)
  exact ⟨hmem.1, of_decide_eq_true hmem.2⟩

/-- The last object of a type was made of the last element of the type. -/
theorem Walked.last_of (h : Walked memory new i p ss es)
    (hholds : memory.Holds p (es.flatMap Element.encode)) (type : UInt8) :
    (last type ss = none ∧ lastElement type es = none) ∨
      ∃ s e, last type ss = some s ∧ lastElement type es = some e ∧ Of memory s e := by
  induction h with
  | nil => exact .inl ⟨rfl, rfl⟩
  | @cons i p s e ss es _ hdescribes _ ih =>
    rw [List.flatMap_cons, Memory.holds_append] at hholds
    rw [last_cons, lastElement_cons, hdescribes.structureType]
    rcases ih hholds.2 with ⟨hs, he⟩ | ⟨s', e', hs, he, hof⟩
    · rw [hs, he]
      by_cases htype : e.type = type
      · rw [if_pos htype, if_pos htype]
        exact .inr ⟨s, e, rfl, rfl, hdescribes.data ▸ hdescribes, hdescribes.data ▸ hholds.1⟩
      · rw [if_neg htype, if_neg htype]
        exact .inl ⟨rfl, rfl⟩
    · rw [hs, he]
      exact .inr ⟨s', e', rfl, rfl, hof⟩

theorem memcpy_of_holds {bytes : List UInt8} (h : memory.Holds p bytes) (hn : n ≤ bytes.length) :
    memcpy memory p n = some (bytes.take n) := by
  induction n generalizing p bytes with
  | zero => rfl
  | succ n ih =>
    cases bytes with
    | nil => exact absurd hn (Nat.not_succ_le_zero n)
    | cons b bytes =>
      rw [memcpy, h.1, ih h.2 (Nat.le_of_succ_le_succ hn)]
      rfl

/-- The UUID stands at offset 8. -/
theorem Of.memcpy (h : Of memory s e) (hlt : 22 ≤ e.body.length) :
    memcpy memory (s.data + 8) 16 = some ((e.body.drop 6).take 16) := by
  have hbody := (Element.holds_encode h.holds).2.2.1
  rw [← List.take_append_drop 6 e.body, Memory.holds_append, List.length_take_of_le (by omega),
    Nat.add_assoc] at hbody
  exact memcpy_of_holds hbody.2 (by rw [List.length_drop]; omega)

end Tables

section Start

/-- The entry point is found. -/
theorem locate_eq (hi : i < 0xFFF) (h : Holds m.physical (0xF0000 + 16 * i) anchor)
    (hfirst : ∀ j < i, ¬ Holds m.physical (0xF0000 + 16 * j) anchor) :
    m.locate = some (0xF0000 + 16 * i) := by
  have hiff : ∀ p, Holds m.physical p anchor ↔ m.physical p = 95 ∧ m.physical (p + 1) = 83 ∧
      m.physical (p + 2) = 77 ∧ m.physical (p + 3) = 95 := by
    intro p
    simp [anchor, Holds, Nat.add_assoc]
  rw [Machine.locate, List.find?_map, Option.map_eq_some_iff]
  refine ⟨i, List.find?_range_eq_some.mpr ⟨?_, List.mem_range.mpr hi, fun j hj => ?_⟩, rfl⟩
  · simpa using (hiff _).mp h
  · simp only [Function.comp_apply, Bool.not_eq_true', decide_eq_false_iff_not]
    exact (hiff _).not.mp (hfirst j hj)

/-- The fields of the entry point are read. -/
theorem probe_eq (e : EntryPoint) (h : Holds m.physical p e.encode) :
    m.probe p = e.toHeader := by
  rw [EntryPoint.encode, holds_append, holds_append, holds_append, holds_append, e.length_rest,
    length_bytesOf, length_bytesOf] at h
  obtain ⟨-, -, hlength, haddress, hnumber⟩ := h
  have hlength16 (x : UInt16) : UInt16.ofNat (x.toNat % 256 ^ 2) = x := by
    rw [Nat.mod_eq_of_lt (show _ < 256 ^ 2 from x.toNat_lt), UInt16.ofNat_toNat]
  have hlength32 (x : UInt32) : UInt32.ofNat (x.toNat % 256 ^ 4) = x := by
    rw [Nat.mod_eq_of_lt (show _ < 256 ^ 4 from x.toNat_lt), UInt32.ofNat_toNat]
  have hvalue := valueAt_of_holds hlength
  have hvalue' := valueAt_of_holds haddress
  have hvalue'' := valueAt_of_holds hnumber
  rw [Nat.add_assoc] at hvalue
  rw [Nat.add_assoc, Nat.add_assoc] at hvalue'
  rw [Nat.add_assoc, Nat.add_assoc, Nat.add_assoc] at hvalue''
  have heq : m.probe p = ⟨UInt32.ofNat (e.address.toNat % 256 ^ 4),
      UInt16.ofNat (e.length.toNat % 256 ^ 2), UInt16.ofNat (e.number.toNat % 256 ^ 2)⟩ := by
    rw [← hvalue, ← hvalue', ← hvalue'']
    rfl
  rw [heq, hlength16, hlength16, hlength32]

theorem map_of_holds {physical : ℕ → UInt8} {bytes : List UInt8} (h : Holds physical p bytes) :
    ((List.range bytes.length).map fun i => physical (p + i)) = bytes := by
  induction bytes generalizing p with
  | nil => rfl
  | cons b bytes ih =>
    rw [List.length_cons, List.range_succ_eq_map, List.map_cons, List.map_map, Nat.add_zero, h.1]
    congr 1
    conv_rhs => rw [← ih h.2]
    refine List.map_congr_left fun i _ => ?_
    rw [Function.comp_apply, Nat.add_assoc, Nat.add_comm 1 i]

/-- The table is mapped as it is in physical memory. -/
theorem memory_holds {header : Header} {bytes : List UInt8}
    (hlength : header.length.toNat = bytes.length)
    (h : Holds m.physical header.address.toNat bytes) : (m.memory header).Holds m.base bytes := by
  have himage : m.image header = bytes := by
    rw [Machine.image, hlength]
    exact map_of_holds h
  rw [Machine.memory, himage]
  exact Memory.holds_write ..

/-- Nothing else is mapped. -/
theorem read_outside (header : Header) {a : ℕ} (ha : a < m.base ∨ m.base + 0xFFFF ≤ a) :
    (m.memory header).read a = none := by
  have hlength : (m.image header).length = header.length.toNat := by
    rw [Machine.image, List.length_map, List.length_range]
  have hlt := header.length.toNat_lt
  refine if_neg ?_
  omega

/-- A base board that is missing cannot be made of what is mapped. -/
theorem construct_of_no_board {header : Header}
    (hwalked : Walked (m.memory header) m.new i p ss es) :
    baseBoard (m.memory header) n (((last 1 ss).map Structure.object).getD 0) = none := by
  have hobject := hwalked.object_system
  refine baseBoard_of_unmapped (read_outside header ?_)
  cases hlast : lastSystem i es with
  | none =>
    rw [hobject, hlast]
    exact .inl m.mapped
  | some j =>
    rw [hobject, hlast]
    exact m.apart j

/-- What the firmware publishes decides what is reported and evaluated. -/
theorem start_eq (h : Publishes m es) (readable : List UInt8 → Bool) : m.start readable =
    (lastElement 1 es).bind fun system => (lastElement 2 es).bind fun baseboard =>
      if system.Numbered 5 ∧ baseboard.Numbered 5 ∧ baseboard.Numbered 6 then
        some ⟨(system.body.drop 6).take 16,
          ((platformFiles system baseboard).map filename).find? readable⟩ else none := by
  obtain ⟨e, i, hi, hencode, hfirst, hnumber, hlength, htable⟩ := h.entryPoint
  have hanchor : Holds m.physical (0xF0000 + 16 * i) anchor := (holds_append.mp hencode).1
  have hholds := memory_holds hlength htable
  obtain ⟨ss, hwalked, hconstruct⟩ :=
    construct_eq m.new (hnumber ▸ e.number.toNat_lt) hholds
  rw [← hnumber, UInt16.ofNat_toNat] at hconstruct
  rw [Machine.start, locate_eq hi hanchor hfirst]
  simp only [Option.bind_eq_bind, Option.bind_some, probe_eq e hencode, hconstruct]
  rcases hwalked.last_of hholds 2 with ⟨hb, hboard⟩ | ⟨b, board, hb, hboard, hofb⟩
  · -- there is no base board
    rw [hb, construct_of_no_board hwalked, hboard]
    cases lastElement 1 es <;> rfl
  · have hlong := h.baseboard board (lastElement_mem hboard).1 (lastElement_mem hboard).2
    rw [hb, hboard]
    simp only [Option.bind_some]
    rcases hwalked.last_of hholds 1 with ⟨hs, hsystem⟩ | ⟨s, system, hs, hsystem, hofs⟩
    · rw [system_adds, hs, hsystem]
      rfl
    · have huuid := h.system system (lastElement_mem hsystem).1 (lastElement_mem hsystem).2
      rw [system_adds, hs, hsystem, baseboard_adds, hb]
      simp only [Option.bind_some, hofs.memcpy huuid,
        loadPlatformFile_eq hofs ((by decide : 5 ≤ 22).trans huuid) hofb hlong]
      split_ifs <;> rfl

end Start

/-- Where the firmware publishes its table, the platform is found in it if and only if there are a
system and a base board, none of their three numbers is the one behind the last string, and the
names of the files are short. -/
theorem starts_iff (h : Publishes m es) : Starts m es ↔
    ∃ system baseboard, lastElement 1 es = some system ∧ lastElement 2 es = some baseboard ∧
      (system.Numbered 5 ∧ baseboard.Numbered 5 ∧ baseboard.Numbered 6) ∧
      ∀ file ∈ platformFiles system baseboard, file.length < 256 := by
  refine exists_congr fun system => exists_congr fun baseboard =>
    and_congr_right fun hsystem => and_congr_right fun hboard => ?_
  simp only [start_eq h, hsystem, hboard, Option.bind_some]
  rw [← filename_find?_iff, ← forall_and_left]
  refine forall_congr' fun readable => ?_
  by_cases hnumbered : system.Numbered 5 ∧ baseboard.Numbered 5 ∧ baseboard.Numbered 6
  · rw [if_pos hnumbered, Option.some.injEq, Started.mk.injEq]
    exact and_congr (iff_of_true rfl hnumbered) .rfl
  · rw [if_neg hnumbered]
    exact iff_of_false nofun fun h => hnumbered h.1

/-- A machine whose firmware tells a table of two structures, which is at `0xE0000`. -/
def publishing (table : List UInt8) : Machine where
  physical p :=
    if p < 0xF0000 then table.getD (p - 0xE0000) 0
    else (anchor ++ (List.replicate 18 0 ++ (bytesOf 2 table.length ++ (bytesOf 4 0xE0000 ++
      bytesOf 2 2)))).getD (p - 0xF0000) 0
  base := 0x10000
  new _ := 0
  mapped := by decide
  apart _ := .inl (by decide)

/-- A system with the product name `P`. -/
def productElement : Element where
  type := 1
  body := [
    0, 1, 0, 1, 0, 0, 222, 173, 190, 239, 0, 17, 34, 51, 68, 85, 222, 175, 202, 254, 186, 190]
  strings := [[80]]
  header := by decide
  short := by decide
  listable := by decide
  few := by decide
  numbers := nofun

/-- A base board with the name `Y Z` and without a version. -/
def nameElement : Element where
  type := 2
  body := [0, 2, 0, 1, 0]
  strings := [[89, 32, 90]]
  header := by decide
  short := by decide
  listable := by decide
  few := by decide
  numbers := nofun

theorem starts_iff_publishing :
    Starts (publishing ([productElement, nameElement].flatMap Element.encode))
      [productElement, nameElement] := by
  have h : Publishes (publishing ([productElement, nameElement].flatMap Element.encode))
      [productElement, nameElement] := by
    refine ⟨⟨⟨⟨0xE0000, 39, 2⟩, List.replicate 18 0, rfl⟩, 0, by decide, by decide +kernel, nofun,
      rfl, by decide +kernel, by decide +kernel⟩, ?_, ?_⟩
    · decide
    · decide
  exact (starts_iff h).mpr ⟨productElement, nameElement, rfl, rfl, by decide, by decide⟩

end Redx.Smbios
