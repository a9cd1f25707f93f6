import Redx.Smbios.Structure
import Mathlib.Data.List.Forall2

/-!
# Looking up the strings of a structure

The formatted area tells a string by its number, counted from 1, and 0 where there is none.
`Structure::string` subtracts 1 in a byte and compares the index with the count.
-/
namespace Redx.Smbios
open Library

/-- The string with a number. -/
def numbered (strings : List (List UInt8)) (number : UInt8) : Option (List UInt8) :=
  if number = 0 then none else strings[number.toNat - 1]?

/-- For the number at an offset `string` finds its string, or NULL when the number has none. -/
def LooksUp (memory : Memory) (s : Structure) (strings : List (List UInt8)) (n number : UInt8) :
    Prop :=
  match numbered strings number with
  | some string => ∃ p, s.string memory n.toNat = some (some p) ∧ memory.StringAt p string
  | none => s.string memory n.toNat = some none

variable {memory : Memory} {object address : ℕ} {s : Structure} {strings : List (List UInt8)}
  {type number : UInt8}

/-- What every factory leaves in the object. -/
structure Made (memory : Memory) (object address : ℕ) (s : Structure) : Prop where
  object : s.object = object
  data : s.data = address
  structureType : memory.read address = some s.structureType
  headerLength : memory.read (address + 1) = some s.headerLength
  strings : StringList.construct memory (address + s.headerLength.toNat) = some s.strings

theorem Made.with_kind (h : Made memory object address s) (kind : Kind) :
    Made memory object address { s with kind := kind } :=
  ⟨h.object, h.data, h.structureType, h.headerLength, h.strings⟩

theorem made_of_construct (h : Structure.construct memory object address = some s) :
    Made memory object address s := by
  rw [Structure.construct] at h
  obtain ⟨structureType, htype, h⟩ := Option.bind_eq_some_iff.mp h
  obtain ⟨headerLength, hlength, h⟩ := Option.bind_eq_some_iff.mp h
  obtain ⟨strings, hstrings, h⟩ := Option.bind_eq_some_iff.mp h
  obtain rfl := Option.some.inj h
  exact ⟨rfl, rfl, htype, hlength, hstrings⟩

theorem made_of_derived {kind : Kind} (h : derived kind memory object address = some s) :
    Made memory object address s := by
  obtain ⟨base, hbase, h⟩ := Option.bind_eq_some_iff.mp h
  obtain rfl := Option.some.inj h
  exact (made_of_construct hbase).with_kind kind

theorem made_of_biosInformation (h : biosInformation memory object address = some s) :
    Made memory object address s := by
  obtain ⟨base, hbase, h⟩ := Option.bind_eq_some_iff.mp h
  obtain ⟨vendor, -, h⟩ := Option.bind_eq_some_iff.mp h
  obtain ⟨version, -, h⟩ := Option.bind_eq_some_iff.mp h
  obtain ⟨releaseDate, -, h⟩ := Option.bind_eq_some_iff.mp h
  obtain rfl := Option.some.inj h
  exact (made_of_construct hbase).with_kind _

theorem made_of_factories (h : factories type memory object address = some s) :
    Made memory object address s := by
  unfold factories at h
  split_ifs at h
  · exact made_of_biosInformation h
  · exact made_of_derived h
  · exact made_of_derived h
  · exact made_of_derived h
  · exact made_of_derived h
  · exact made_of_construct h

/-- The list of the object, when it is in memory as these strings. -/
theorem Made.strings_eq (h : Made memory object address s) (hlist : Listable strings)
    (hholds : memory.Holds (address + s.headerLength.toNat) (encodeStrings strings)) :
    s.strings = ⟨strings.length, pointers (address + s.headerLength.toNat) strings,
      address + s.headerLength.toNat + (encodeStrings strings).length +
        if strings.length = 0 then 1 else 0⟩ :=
  Option.some.inj (h.strings.symm.trans (construct_of_holds hlist hholds))

theorem exists_pointer {ps : List ℕ} (h : List.Forall₂ memory.StringAt ps strings) {i : ℕ}
    {string : List UInt8} (hget : strings[i]? = some string) :
    ∃ p, ps[i]? = some p ∧ memory.StringAt p string := by
  obtain ⟨hi, rfl⟩ := List.getElem?_eq_some_iff.mp hget
  have hlt : i < ps.length := h.length_eq ▸ hi
  exact ⟨ps[i], List.getElem?_eq_getElem hlt, h.get hlt hi⟩

/-- A lookup goes right if and only if the number is not the one behind the last and, when it is
0, there are fewer than 255 strings. -/
theorem string_lookup_iff {n : UInt8} (hs : factories type memory object address = some s)
    (hlist : Listable strings)
    (hholds : memory.Holds (address + s.headerLength.toNat) (encodeStrings strings))
    (hread : memory.read (address + n.toNat) = some number) :
    LooksUp memory s strings n number ↔
      number.toNat ≠ strings.length + 1 ∧ (number = 0 → strings.length < 255) := by
  have hmade := made_of_factories hs
  have hstrings := stringAt_pointers hlist hholds
  have hlength := hstrings.length_eq
  rw [← hmade.data] at hread
  rw [LooksUp, numbered, string_of_read hread, hmade.strings_eq hlist hholds]
  dsimp only
  by_cases hzero : number = 0
  · -- the index wraps around to 255
    subst hzero
    have hindex : ((0 : UInt8) - 1).toNat = 255 := rfl
    rw [if_pos rfl, hindex]
    by_cases hfew : strings.length < 255
    · rw [if_pos hfew]
      exact iff_of_true rfl ⟨(Nat.succ_ne_zero _).symm, fun _ => hfew⟩
    · rw [if_neg hfew]
      refine iff_of_false (fun hnull => ?_) fun h => hfew (h.2 rfl)
      obtain ⟨p, -, hp⟩ := Option.map_eq_some_iff.mp hnull
      cases hp
  · rw [if_neg hzero, toNat_sub_one hzero]
    have hpos : number.toNat ≠ 0 := fun h => hzero (UInt8.toNat_inj.mp h)
    rcases Nat.lt_trichotomy (number.toNat - 1) strings.length with hlt | heq | hgt
    · have hget := List.getElem?_eq_getElem hlt
      obtain ⟨p, hp, hstring⟩ := exists_pointer hstrings hget
      rw [hget, if_neg (Nat.not_lt_of_lt hlt), hp]
      exact iff_of_true ⟨p, rfl, hstring⟩ ⟨by omega, fun h => absurd h hzero⟩
    · rw [heq, List.getElem?_eq_none (Nat.le_refl _), if_neg (Nat.lt_irrefl _),
        List.getElem?_eq_none (Nat.le_of_eq hlength)]
      exact iff_of_false nofun fun h => h.1 (by omega)
    · rw [List.getElem?_eq_none (Nat.le_of_lt hgt), if_pos hgt]
      exact iff_of_true rfl ⟨by omega, fun h => absurd h hzero⟩

/-- A system with the strings `X` and `YZ`, whose manufacturer is string 2 and whose product is
string 0. -/
def named : Memory := Memory.empty.write 16 [1, 6, 0, 1, 2, 0, 88, 0, 89, 90, 0, 0]

theorem string_lookup_iff_named :
    LooksUp named ⟨64, 16, 1, 6, ⟨2, [22, 24], 28⟩, .system⟩ [[88], [89, 90]] 4 2 ∧
      LooksUp named ⟨64, 16, 1, 6, ⟨2, [22, 24], 28⟩, .system⟩ [[88], [89, 90]] 5 0 := by
  have hs : factories 1 named 64 16 = some ⟨64, 16, 1, 6, ⟨2, [22, 24], 28⟩, .system⟩ := by
    decide
  have hholds : named.Holds 22 (encodeStrings [[88], [89, 90]]) :=
    ⟨rfl, rfl, rfl, rfl, rfl, rfl, trivial⟩
  have hread : named.read (16 + (4 : UInt8).toNat) = some 2 := rfl
  have hread' : named.read (16 + (5 : UInt8).toNat) = some 0 := rfl
  exact ⟨(string_lookup_iff hs (by decide) hholds hread).mpr ⟨by decide, nofun⟩,
    (string_lookup_iff hs (by decide) hholds hread').mpr ⟨by decide, by decide⟩⟩

/-- A system without strings, whose manufacturer is string 1 nevertheless. -/
def unnamed : Memory := Memory.empty.write 16 [1, 6, 0, 1, 1, 0, 0, 0]

/-- The lookup reads an array that is not there. -/
theorem not_looksUp : ∃ s, factories 1 unnamed 64 16 = some s ∧
    unnamed.Holds (16 + s.headerLength.toNat) (encodeStrings []) ∧
    unnamed.read (16 + (4 : UInt8).toNat) = some 1 ∧ ¬ LooksUp unnamed s [] 4 1 :=
  ⟨⟨64, 16, 1, 6, ⟨0, [], 24⟩, .system⟩, by decide, ⟨rfl, trivial⟩, rfl, nofun⟩

end Redx.Smbios
