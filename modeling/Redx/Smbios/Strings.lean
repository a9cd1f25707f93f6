import Redx.Library.Memory

/-!
# The string list of a structure

Behind the formatted area of an SMBIOS structure come its strings, one after the other, and a NUL
after the last. Where there are no strings there are two NULs.
-/
namespace Redx.Smbios
open Library

/-- `SMBIOS::StringList`, with its array as a list. A memory of fewer than 2^31 bytes has no list
whose count an `int` does not hold. -/
structure StringList where
  count : ℕ
  strings : List ℕ
  endAddress : ℕ
  deriving DecidableEq, Repr

/-- `StringList::parse`, down to a depth of recursion: the strings from `data` on, the `n`th
first. -/
def parse (memory : Memory) : ℕ → ℕ → ℕ → Option StringList
  | 0, _, _ => none
  | depth + 1, data, n => do
    let c ← memory.read data
    if c = 0 then
      return ⟨n, [], if n ≠ 0 then data + 1 else data + 2⟩
    else
      let p ← memory.nul data
      let list ← parse memory depth (p + 1) (n + 1)
      return { list with strings := data :: list.strings }

/-- `StringList::StringList`: no list of the memory is deeper than its limit. -/
def StringList.construct (memory : Memory) (data : ℕ) : Option StringList :=
  parse memory memory.limit data 0

/-- The bytes of a list of strings, up to the NUL that ends the list. -/
def encodeStrings : List (List UInt8) → List UInt8
  | [] => [0]
  | string :: strings => string ++ 0 :: encodeStrings strings

/-- Strings that can stand in a list. -/
def Listable (strings : List (List UInt8)) : Prop := ∀ string ∈ strings, string ≠ [] ∧ 0 ∉ string

instance (strings : List (List UInt8)) : Decidable (Listable strings) :=
  inferInstanceAs (Decidable (∀ string ∈ strings, _))

/-- Where the strings of a list begin. -/
def pointers : ℕ → List (List UInt8) → List ℕ
  | _, [] => []
  | data, string :: strings => data :: pointers (data + string.length + 1) strings

variable {memory : Memory} {data depth n : ℕ} {strings : List (List UInt8)} {list : StringList}

theorem length_pointers (data : ℕ) (strings : List (List UInt8)) :
    (pointers data strings).length = strings.length := by
  induction strings generalizing data with
  | nil => rfl
  | cons string strings ih => rw [pointers, List.length_cons, List.length_cons, ih]

theorem length_lt_encodeStrings (strings : List (List UInt8)) :
    strings.length < (encodeStrings strings).length := by
  induction strings with
  | nil => exact Nat.one_pos
  | cons string strings ih =>
    rw [encodeStrings, List.length_append, List.length_cons, List.length_cons]
    omega

theorem holds_encodeStrings_cons {string : List UInt8} :
    memory.Holds data (encodeStrings (string :: strings)) ↔
      memory.Holds data (string ++ [0]) ∧
        memory.Holds (data + string.length + 1) (encodeStrings strings) := by
  rw [encodeStrings, ← List.singleton_append, ← List.append_assoc, Memory.holds_append,
    List.length_append, List.length_singleton, Nat.add_assoc]

/-- In the bytes of a list, each pointer is at its string. -/
theorem stringAt_pointers (hlist : Listable strings)
    (h : memory.Holds data (encodeStrings strings)) :
    List.Forall₂ memory.StringAt (pointers data strings) strings := by
  induction strings generalizing data with
  | nil => exact .nil
  | cons string strings ih =>
    rw [holds_encodeStrings_cons] at h
    obtain ⟨⟨-, hnul⟩, hlist⟩ := List.forall_mem_cons.mp hlist
    exact .cons ⟨hnul, h.1⟩ (ih hlist h.2)

/-- One string is read, and the rest of the list. -/
theorem parse_cons {string : List UInt8} (hne : string ≠ []) (h : memory.StringAt data string) :
    parse memory (depth + 1) data n = (parse memory depth (data + string.length + 1) (n + 1)).map
      fun list => { list with strings := data :: list.strings } := by
  obtain ⟨c, rest, rfl⟩ := List.exists_cons_of_ne_nil hne
  have hc : c ≠ 0 := fun hc => h.1 (hc ▸ List.mem_cons_self)
  have hread : memory.read data = some c := h.2.1
  have hnul := Memory.nul_eq_some.mpr ⟨_, h, rfl⟩
  rw [parse, hread, hnul]
  simp only [Option.bind_eq_bind, Option.bind_some, if_neg hc]
  cases parse memory depth (data + (c :: rest).length + 1) (n + 1) <;> rfl

/-- The strings of a list are found, in order, and the address behind the list. -/
theorem parse_of_holds (hlist : Listable strings)
    (h : memory.Holds data (encodeStrings strings)) (hdepth : strings.length < depth) :
    parse memory depth data n = some ⟨n + strings.length, pointers data strings,
      data + (encodeStrings strings).length + if n + strings.length = 0 then 1 else 0⟩ := by
  induction strings generalizing data depth n with
  | nil =>
    obtain ⟨depth, rfl⟩ := Nat.exists_eq_succ_of_ne_zero (Nat.ne_zero_of_lt hdepth)
    have hread : memory.read data = some 0 := h.1
    rw [parse, hread]
    by_cases hn : n = 0 <;> simp [hn, pointers, encodeStrings]
  | cons string strings ih =>
    obtain ⟨depth, rfl⟩ := Nat.exists_eq_succ_of_ne_zero (Nat.ne_zero_of_lt hdepth)
    rw [holds_encodeStrings_cons] at h
    obtain ⟨⟨hne, hnul⟩, hlist⟩ := List.forall_mem_cons.mp hlist
    rw [parse_cons hne ⟨hnul, h.1⟩, ih hlist h.2 (Nat.lt_of_succ_lt_succ hdepth)]
    have hcount : n + 1 + strings.length = n + (string :: strings).length := by
      rw [List.length_cons]
      omega
    have hend : data + string.length + 1 + (encodeStrings strings).length =
        data + (encodeStrings (string :: strings)).length := by
      rw [encodeStrings, List.length_append, List.length_cons]
      omega
    rw [hcount, hend]
    rfl

theorem construct_of_holds (hlist : Listable strings)
    (h : memory.Holds data (encodeStrings strings)) :
    StringList.construct memory data = some ⟨strings.length, pointers data strings,
      data + (encodeStrings strings).length + if strings.length = 0 then 1 else 0⟩ := by
  have hlt := length_lt_encodeStrings strings
  have hle := h.le_limit (List.ne_nil_of_length_pos (Nat.zero_lt_of_lt hlt))
  rw [StringList.construct, parse_of_holds hlist h (by omega), Nat.zero_add]

/-- A parse that ends has met the NUL of the list, or a string and the rest of the list. -/
theorem parse_cases (h : parse memory (depth + 1) data n = some list) :
    (memory.read data = some 0 ∧ list = ⟨n, [], if n ≠ 0 then data + 1 else data + 2⟩) ∨
    ∃ c p rest, memory.read data = some c ∧ c ≠ 0 ∧ memory.nul data = some p ∧
      parse memory depth (p + 1) (n + 1) = some rest ∧
      list = { rest with strings := data :: rest.strings } := by
  rw [parse] at h
  obtain ⟨c, hread, h⟩ := Option.bind_eq_some_iff.mp h
  by_cases hc : c = 0
  · rw [if_pos hc] at h
    exact .inl ⟨hc ▸ hread, (Option.some.inj h).symm⟩
  · rw [if_neg hc] at h
    obtain ⟨p, hp, h⟩ := Option.bind_eq_some_iff.mp h
    obtain ⟨rest, hrest, h⟩ := Option.bind_eq_some_iff.mp h
    exact .inr ⟨c, p, rest, hread, hc, hp, hrest, (Option.some.inj h).symm⟩

/-- Whatever is parsed to an end is a list of strings. -/
theorem holds_of_parse (h : parse memory depth data n = some list) :
    ∃ strings, Listable strings ∧ memory.Holds data (encodeStrings strings) := by
  induction depth generalizing data n list with
  | zero => cases h
  | succ depth ih =>
    obtain ⟨hread, -⟩ | ⟨c, p, rest, hread, hc, hp, hrest, -⟩ := parse_cases h
    · exact ⟨[], nofun, hread, trivial⟩
    · obtain ⟨string, hstring, rfl⟩ := Memory.nul_eq_some.mp hp
      obtain ⟨strings, hlist, hholds⟩ := ih hrest
      have hne : string ≠ [] := by
        rintro rfl
        exact hc (Option.some.inj (hread.symm.trans hstring.2.1))
      refine ⟨string :: strings, List.forall_mem_cons.mpr ⟨⟨hne, hstring.1⟩, hlist⟩, ?_⟩
      rw [holds_encodeStrings_cons]
      exact ⟨hstring.2, hholds⟩

theorem count_of_parse (h : parse memory depth data n = some list) :
    list.count = n + list.strings.length := by
  induction depth generalizing data n list with
  | zero => cases h
  | succ depth ih =>
    obtain ⟨-, rfl⟩ | ⟨c, p, rest, -, -, -, hrest, rfl⟩ := parse_cases h
    · rfl
    · calc rest.count
        _ = n + 1 + rest.strings.length := ih hrest
        _ = n + (data :: rest.strings).length := by
          rw [List.length_cons]
          omega

/-- The constructor returns exactly where a list of strings is mapped. -/
theorem construct_isSome_iff (memory : Memory) (data : ℕ) :
    (StringList.construct memory data).isSome ↔
    ∃ strings, Listable strings ∧ memory.Holds data (encodeStrings strings) := by
  constructor
  · intro h
    obtain ⟨list, hlist⟩ := Option.isSome_iff_exists.mp h
    exact holds_of_parse hlist
  · rintro ⟨strings, hlist, h⟩
    rw [construct_of_holds hlist h]
    rfl

end Redx.Smbios
