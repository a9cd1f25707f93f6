import Redx.Smbios.Lookup
import Redx.Smbios.Table

/-!
# The reads of the table

The image of the table comes from the firmware. The constructor of `SMBIOS::Table` is told its
length, maps it, and then follows header lengths and strings wherever they lead. What it reads is
found by a run in a memory where nothing but the image is mapped.
-/
namespace Redx.Smbios
open Library

/-- An image that is mapped, and the addresses of the objects that are allocated. -/
structure Mapping where
  image : List UInt8
  base : ℕ
  new : ℕ → ℕ
  mapped : 0 < base
  apart : ∀ i, new i < base ∨ base + image.length ≤ new i

namespace Mapping

/-- The memory of the image alone. -/
def memory (m : Mapping) : Memory := Memory.empty.write m.base m.image

/-- Nothing else is read and no pointer is NULL where the constructor returns. -/
def Robust (m : Mapping) (count : UInt16) : Prop :=
  (Table.construct m.memory m.new m.base count).isSome

end Mapping

/-- From the address on, structures of these types lie one behind the other. -/
inductive Laid (memory : Memory) : ℕ → List UInt8 → Prop
  | nil {p : ℕ} : Laid memory p []
  | cons {p : ℕ} {type headerLength : UInt8} {strings : List (List UInt8)} {types : List UInt8} :
      Lies memory p type headerLength strings → Laid memory (behind p headerLength strings) types →
      Laid memory p (type :: types)

variable {memory : Memory} {new : ℕ → ℕ} {object i p count : ℕ} {type headerLength : UInt8}
  {strings : List (List UInt8)} {s : Structure} {table t : Table}

/-- The constructor of the BIOS information has found its three strings. -/
theorem numbers_of_biosInformation (h : biosInformation memory object p = some s) :
    ∃ base, Structure.construct memory object p = some base ∧ base.strings = s.strings ∧
      ∀ n ∈ [4, 5, 8], (base.string memory n).isSome := by
  obtain ⟨base, hbase, h⟩ := Option.bind_eq_some_iff.mp h
  obtain ⟨vendor, hvendor, h⟩ := Option.bind_eq_some_iff.mp h
  obtain ⟨version, hversion, h⟩ := Option.bind_eq_some_iff.mp h
  obtain ⟨releaseDate, hreleaseDate, h⟩ := Option.bind_eq_some_iff.mp h
  obtain rfl := Option.some.inj h
  refine ⟨base, hbase, rfl, ?_⟩
  simp [hvendor, hversion, hreleaseDate]

theorem lies_of_factories (htype : memory.read p = some type)
    (h : factories type memory object p = some s) :
    ∃ headerLength strings, Lies memory p type headerLength strings ∧
      s.next = behind p headerLength strings := by
  have hmade := made_of_factories h
  obtain ⟨strings, hlist, hholds⟩ :=
    (construct_isSome_iff memory _).mp (Option.isSome_iff_exists.mpr ⟨_, hmade.strings⟩)
  have hstrings := hmade.strings_eq hlist hholds
  refine ⟨s.headerLength, strings, ⟨htype, hmade.headerLength, hlist, hholds, ?_⟩, ?_⟩
  · rintro rfl n hn
    obtain ⟨base, hbase, heq, hlookup⟩ := numbers_of_biosInformation h
    have hcount : base.strings.count = strings.length := by rw [heq, hstrings]
    have hlength : base.strings.strings.length = base.strings.count := by
      rw [heq, hstrings]
      exact length_pointers ..
    have hnumber := (string_isSome_iff hlength).mp (hlookup n hn)
    rwa [(made_of_construct hbase).data, hcount] at hnumber
  · rw [Structure.next, hstrings]
    rfl

theorem walk_succ_eq_some :
    Table.walk memory new (count + 1) i p table = some t ↔ ∃ type s, memory.read p = some type ∧
      factories type memory (new i) p = some s ∧
      Table.walk memory new count (i + 1) s.next (table.add type s) = some t := by
  rw [Table.walk]
  constructor
  · intro h
    obtain ⟨type, htype, h⟩ := Option.bind_eq_some_iff.mp h
    obtain ⟨_, -, h⟩ := Option.bind_eq_some_iff.mp h
    obtain ⟨s, hs, h⟩ := Option.bind_eq_some_iff.mp h
    exact ⟨type, s, htype, hs, h⟩
  · rintro ⟨type, s, htype, hs, h⟩
    have hlength := (made_of_factories hs).headerLength
    simp only [htype, hlength, hs, Option.bind_eq_bind, Option.bind_some, h]

theorem baseboard_add (table : Table) (type : UInt8) (s : Structure) :
    (table.add type s).baseboard.isSome ↔ type = 2 ∨ table.baseboard.isSome := by
  by_cases htype : type = 2
  · subst htype
    exact iff_of_true rfl (.inl rfl)
  · have hadd : (table.add type s).baseboard = table.baseboard := by
      unfold Table.add
      split_ifs <;> rfl
    rw [hadd]
    exact (or_iff_right htype).symm

/-- The loop ends with a base board where the structures that it comes to are mapped and one of
them, or the table before, has one. -/
theorem exists_walk_iff :
    (∃ t, Table.walk memory new count i p table = some t ∧ t.baseboard.isSome) ↔
    ∃ types, types.length = count ∧ Laid memory p types ∧
      (2 ∈ types ∨ table.baseboard.isSome) := by
  induction count generalizing i p table with
  | zero =>
    constructor
    · rintro ⟨t, ht, hboard⟩
      obtain rfl := Option.some.inj ht
      exact ⟨[], rfl, .nil, .inr hboard⟩
    · rintro ⟨types, hlength, -, hboard⟩
      obtain rfl := List.eq_nil_of_length_eq_zero hlength
      exact ⟨table, rfl, hboard.resolve_left List.not_mem_nil⟩
  | succ count ih =>
    constructor
    · rintro ⟨t, ht, hboard⟩
      obtain ⟨type, s, htype, hs, ht⟩ := walk_succ_eq_some.mp ht
      obtain ⟨headerLength, strings, hlies, hnext⟩ := lies_of_factories htype hs
      obtain ⟨types, hlength, hlaid, hboard⟩ := ih.mp ⟨t, ht, hboard⟩
      rw [hnext] at hlaid
      rw [baseboard_add] at hboard
      refine ⟨type :: types, congrArg Nat.succ hlength, .cons hlies hlaid, ?_⟩
      rw [List.mem_cons, eq_comm, or_assoc]
      exact or_left_comm.mp hboard
    · rintro ⟨types, hlength, hlaid, hboard⟩
      cases hlaid with
      | nil => cases hlength
      | @cons _ type headerLength strings types hlies hlaid =>
        obtain ⟨kind, hs⟩ := factories_of_lies (new i) hlies
        rw [List.mem_cons, eq_comm, or_assoc, or_left_comm, ← baseboard_add table type
          { based (new i) p type headerLength strings with kind := kind }] at hboard
        obtain ⟨t, ht, hsome⟩ := ih.mpr ⟨types, Nat.succ.inj hlength, hlaid, hboard⟩
        exact ⟨t, walk_succ_eq_some.mpr ⟨type, _, hlies.read_type, hs, ht⟩, hsome⟩

theorem system_add (hsystem : ∀ s, table.system = some s → ∃ i, s.object = new i)
    (hs : s.object = new i) :
    ∀ u, (table.add type s).system = some u → ∃ i, u.object = new i := by
  intro u hu
  by_cases htype : type = 1
  · subst htype
    obtain rfl := Option.some.inj hu
    exact ⟨i, hs⟩
  · have hadd : (table.add type s).system = table.system := by
      unfold Table.add
      split_ifs <;> rfl
    exact hsystem u (hadd ▸ hu)

/-- The system of the table is one of the objects that were allocated. -/
theorem system_of_walk (hsystem : ∀ s, table.system = some s → ∃ i, s.object = new i)
    (h : Table.walk memory new count i p table = some t) :
    ∀ s, t.system = some s → ∃ i, s.object = new i := by
  induction count generalizing i p table with
  | zero =>
    obtain rfl := Option.some.inj h
    exact hsystem
  | succ count ih =>
    obtain ⟨type, s, -, hs, h⟩ := walk_succ_eq_some.mp h
    exact ih (system_add hsystem (made_of_factories hs).object) h

theorem baseBoard_of_unmapped {a : ℕ} (h : memory.read a = none) :
    baseBoard memory object a = none := by
  rw [baseBoard, derived, Structure.construct, h]
  rfl

namespace Mapping

theorem read_of_outside (m : Mapping) {a : ℕ} (h : a < m.base ∨ m.base + m.image.length ≤ a) :
    m.memory.read a = none :=
  if_neg (by omega)

/-- A base board that is missing cannot be made in the image: neither NULL nor the object of the
system lies there. -/
theorem construct_isSome_iff (m : Mapping) (count : UInt16) :
    (Table.construct m.memory m.new m.base count).isSome ↔
    ∃ t, Table.walk m.memory m.new count.toNat 0 m.base .empty = some t ∧
      t.baseboard.isSome := by
  rw [Table.construct]
  cases hwalk : Table.walk m.memory m.new count.toNat 0 m.base .empty with
  | none =>
    refine iff_of_false Bool.false_ne_true ?_
    rintro ⟨t, ht, -⟩
    cases ht
  | some t =>
    simp only [Option.bind_eq_bind, Option.bind_some, Option.some.injEq, exists_eq_left']
    cases hboard : t.baseboard with
    | some b => exact iff_of_true rfl rfl
    | none =>
      refine iff_of_false (fun h => ?_) Bool.false_ne_true
      have hsystem : ∀ s, t.system = some s → ∃ i, s.object = m.new i :=
        system_of_walk (fun _ hs => by cases hs) hwalk
      cases hs : t.system with
      | none =>
        have hread := m.read_of_outside (.inl m.mapped)
        simp [hs, baseBoard_of_unmapped hread] at h
      | some s =>
        obtain ⟨i, hobject⟩ := hsystem s hs
        have hread := m.read_of_outside (m.apart i)
        simp [hs, hobject, baseBoard_of_unmapped hread] at h

end Mapping

/-- The constructor stays in the image if and only if as many structures as it expects lie there
one behind the other, and one of them is a base board. -/
theorem table_robust_iff (m : Mapping) (count : UInt16) :
    m.Robust count ↔
      ∃ types, types.length = count.toNat ∧ Laid m.memory m.base types ∧ 2 ∈ types := by
  rw [Mapping.Robust, m.construct_isSome_iff, exists_walk_iff]
  simp [Table.empty]

/-- An image at `0x1000`, with all objects before it. -/
def mappedImage (image : List UInt8) : Mapping where
  image := image
  base := 0x1000
  new _ := 0x800
  mapped := by decide
  apart _ := .inl (by decide)

/-- The strings of a system do not end in the image, and in the other there is no system that a
base board could be made from. -/
theorem not_robust : ¬ (mappedImage [1, 4, 0, 1]).Robust 1 ∧
    ¬ (mappedImage [127, 4, 0, 1, 0, 0]).Robust 1 := by
  unfold Mapping.Robust
  decide +kernel

end Redx.Smbios
