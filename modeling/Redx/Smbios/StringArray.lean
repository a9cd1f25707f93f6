import Redx.Library.Machine
import Redx.Smbios.Strings
import Mathlib.Data.List.Forall2
import Mathlib.Logic.Function.Basic

/-!
# The string list in its array

`StringList::parse` counts in an `int` on the way down, allocates an array when it meets the end of
the list, and stores the pointers in it on the way up.
-/
namespace Redx.Smbios
open Library

/-- An array from `malloc`: the pointers that fit, and those stored so far. -/
structure PointerArray where
  size : ℕ
  cells : ℕ → Option ℕ

/-- `SMBIOS::StringList` with the fields of the class. The array may be NULL. -/
structure StringArray where
  count : ℤ
  strings : Option PointerArray
  endAddress : ℕ

def sizeofPointer : ℕ := 8

/-- `malloc( sizeof(char*) * n )`, where `malloc` tells the sizes that are given. -/
def PointerArray.allocate (malloc : ℕ → Bool) (n : ℤ) : Option PointerArray :=
  let size := toSize (sizeofPointer * n)
  if malloc size then some ⟨size / sizeofPointer, fun _ => none⟩ else none

/-- What is at an index. Outside of the array there is no result. -/
def PointerArray.get (array : PointerArray) (index : ℤ) : Option ℕ :=
  if 0 ≤ index ∧ index < array.size then array.cells index.toNat else none

def PointerArray.store (array : PointerArray) (index : ℤ) (p : ℕ) : Option PointerArray :=
  if 0 ≤ index ∧ index < array.size then
    some ⟨array.size, Function.update array.cells index.toNat (some p)⟩
  else none

namespace StringArray

/-- `operator []` -/
def get (list : StringArray) (index : ℤ) : Option ℕ := do
  let array ← list.strings
  array.get index

/-- `strings[n] = data` -/
def store (list : StringArray) (n : ℤ) (data : ℕ) : Option StringArray := do
  let array ← list.strings
  let array ← array.store n data
  return { list with strings := some array }

/-- `StringList::parse`, down to a depth of recursion. -/
def parse (malloc : ℕ → Bool) (memory : Memory) : ℕ → ℕ → ℤ → Option StringArray
  | 0, _, _ => none
  | depth + 1, data, n => do
    let c ← memory.read data
    if c = 0 then
      if n ≠ 0 then return ⟨n, PointerArray.allocate malloc n, data + 1⟩
      else return ⟨n, none, data + 2⟩
    else
      let p ← memory.nul data
      let list ← parse malloc memory depth (p + 1) (toInt (n + 1))
      list.store n data

/-- `StringList::StringList`: no list of the memory is deeper than its limit. -/
def construct (malloc : ℕ → Bool) (memory : Memory) (data : ℕ) : Option StringArray :=
  parse malloc memory memory.limit data 0

end StringArray

/-- The strings of a list, each with a NUL behind, and a NUL; without strings there are two. -/
def encoding (strings : List (List UInt8)) : List UInt8 :=
  encodeStrings strings ++ if strings = [] then [0] else []

/-- The object counts the strings, has each at its index, and ends right behind the encoding. -/
def Decodes (malloc : ℕ → Bool) (memory : Memory) (data : ℕ) (strings : List (List UInt8)) : Prop :=
  ∃ list, StringArray.construct malloc memory data = some list ∧ list.count = strings.length ∧
    (∀ i (hi : i < strings.length), ∃ p, list.get i = some p ∧ memory.StringAt p strings[i]) ∧
    list.endAddress = data + (encoding strings).length

/-- The array has the pointers of a list from an index on, and its length is the count. -/
structure StringArray.Represents (a : StringArray) (list : StringList) (n : ℕ) : Prop where
  count : a.count = list.count
  endAddress : a.endAddress = list.endAddress
  total : list.count = n + list.strings.length
  array : list.count ≠ 0 → ∃ array, a.strings = some array ∧ array.size = list.count ∧
    ∀ i (hi : i < list.strings.length), array.cells (n + i) = some list.strings[i]

variable {malloc : ℕ → Bool} {memory : Memory} {data depth n : ℕ} {strings : List (List UInt8)}
  {list : StringList} {a : StringArray} {array : PointerArray}

theorem PointerArray.allocate_of_lt (hn : n < 2 ^ 31) (h : malloc (8 * n) = true) :
    PointerArray.allocate malloc n = some ⟨n, fun _ => none⟩ := by
  have hsize : toSize (sizeofPointer * n) = 8 * n := by
    rw [sizeofPointer, toSize_eq_self (by omega) (by omega)]
    omega
  rw [PointerArray.allocate, hsize]
  simp [h, sizeofPointer]

theorem PointerArray.store_of_lt (hn : n < array.size) (p : ℕ) :
    array.store n p = some ⟨array.size, Function.update array.cells n (some p)⟩ :=
  if_pos ⟨Int.natCast_nonneg n, Int.ofNat_lt.mpr hn⟩

namespace StringArray

theorem parse_nul (h : memory.read data = some 0) (n : ℤ) :
    parse malloc memory (depth + 1) data n =
      if n ≠ 0 then some ⟨n, PointerArray.allocate malloc n, data + 1⟩
      else some ⟨n, none, data + 2⟩ := by
  rw [parse, h]
  rfl

theorem parse_string {c : UInt8} {p : ℕ} (h : memory.read data = some c) (hc : c ≠ 0)
    (hp : memory.nul data = some p) (n : ℤ) :
    parse malloc memory (depth + 1) data n =
      (parse malloc memory depth (p + 1) (toInt (n + 1))).bind fun list => list.store n data := by
  rw [parse, h, hp]
  simp only [Option.bind_eq_bind, Option.bind_some, if_neg hc]

/-- On the way up the array gets the pointer before those that it has. -/
theorem Represents.store (h : a.Represents list (n + 1)) (p : ℕ) :
    ∃ a', a.store n p = some a' ∧
      a'.Represents { list with strings := p :: list.strings } n := by
  have htotal := h.total
  obtain ⟨array, harray, hsize, hcells⟩ := h.array (by omega)
  have hlt : n < array.size := by omega
  have hstore := PointerArray.store_of_lt hlt p
  refine ⟨{ a with strings := some ⟨array.size, Function.update array.cells n (some p)⟩ }, ?_,
    h.count, h.endAddress, ?_, fun _ => ⟨_, rfl, hsize, fun i hi => ?_⟩⟩
  · rw [StringArray.store, harray, Option.bind_eq_bind, Option.bind_some, hstore]
    rfl
  · dsimp only
    rw [List.length_cons]
    omega
  · cases i with
    | zero => exact Function.update_self ..
    | succ i =>
      have hne : n + (i + 1) ≠ n := by omega
      have hcell := hcells i (Nat.lt_of_succ_lt_succ hi)
      rw [Nat.add_assoc, Nat.add_comm 1 i] at hcell
      exact (Function.update_of_ne hne _ _).trans hcell

theorem Represents.get (h : a.Represents list 0) {i : ℕ} (hi : i < list.strings.length) :
    a.get i = some list.strings[i] := by
  have htotal := h.total
  obtain ⟨array, harray, hsize, hcells⟩ := h.array (by omega)
  have hin : (0 : ℤ) ≤ i ∧ (i : ℤ) < array.size := by omega
  have hcell := hcells i hi
  rw [Nat.zero_add] at hcell
  rw [StringArray.get, harray, Option.bind_eq_bind, Option.bind_some, PointerArray.get, if_pos hin,
    Int.toNat_natCast, hcell]

/-- Where the count fits an `int` and `malloc` gives the array, the object has what the list has. -/
theorem parse_represents (h : Smbios.parse memory depth data n = some list)
    (hcount : list.count < 2 ^ 31) (hmalloc : list.count = 0 ∨ malloc (8 * list.count) = true) :
    ∃ a, parse malloc memory depth data n = some a ∧ a.Represents list n := by
  induction depth generalizing data n list with
  | zero => cases h
  | succ depth ih =>
    obtain ⟨hread, rfl⟩ | ⟨c, p, rest, hread, hc, hp, hrest, rfl⟩ := parse_cases h
    · rw [parse_nul hread]
      by_cases hn : n = 0
      · subst hn
        exact ⟨_, rfl, rfl, rfl, rfl, fun h => absurd rfl h⟩
      · have hgiven := hmalloc.resolve_left hn
        rw [if_pos (Int.natCast_ne_zero.mpr hn), PointerArray.allocate_of_lt hcount hgiven]
        exact ⟨_, rfl, rfl, (if_pos hn).symm, rfl, fun _ => ⟨_, rfl, rfl, nofun⟩⟩
    · have hrestTotal := count_of_parse hrest
      have hrestCount : rest.count < 2 ^ 31 := hcount
      have hnext : toInt (n + 1) = (n + 1 : ℕ) := toInt_eq_self (by omega) (by omega)
      obtain ⟨a, ha, hrepresents⟩ := ih hrest hcount hmalloc
      obtain ⟨a', hstore, hresult⟩ := hrepresents.store data
      refine ⟨a', ?_, hresult⟩
      rw [parse_string hread hc hp, hnext, ha, Option.bind_some, hstore]

/-- A store keeps the count, and needs an array. -/
theorem of_store {a' : StringArray} {index : ℤ} {p : ℕ} (h : a.store index p = some a') :
    a'.count = a.count ∧ a.strings ≠ none ∧ a'.strings ≠ none := by
  obtain ⟨array, harray, h⟩ := Option.bind_eq_some_iff.mp h
  obtain ⟨array', -, h⟩ := Option.bind_eq_some_iff.mp h
  obtain rfl := Option.some.inj h
  exact ⟨rfl, by rw [harray]; exact nofun, nofun⟩

/-- The count is what an `int` keeps of the list's, and an array is one that `malloc` gave. -/
theorem of_parse (h : Smbios.parse memory depth data n = some list) {index : ℤ}
    (hindex : index = toInt n) (ha : parse malloc memory depth data index = some a) :
    a.count = toInt list.count ∧
      (a.strings ≠ none → malloc (toSize (sizeofPointer * a.count)) = true) ∧
      (list.strings ≠ [] → a.strings ≠ none) := by
  induction depth generalizing data n list index a with
  | zero => cases h
  | succ depth ih =>
    obtain ⟨hread, rfl⟩ | ⟨c, p, rest, hread, hc, hp, hrest, rfl⟩ := parse_cases h
    · rw [parse_nul hread] at ha
      split at ha
      · obtain rfl := Option.some.inj ha
        refine ⟨hindex, fun hsome => ?_, fun h => absurd rfl h⟩
        by_contra hgiven
        exact hsome (if_neg hgiven)
      · obtain rfl := Option.some.inj ha
        exact ⟨hindex, fun h => absurd rfl h, fun h => absurd rfl h⟩
    · rw [parse_string hread hc hp] at ha
      obtain ⟨b, hb, hstore⟩ := Option.bind_eq_some_iff.mp ha
      have hnext : toInt (index + 1) = toInt (n + 1 : ℕ) := by
        rw [hindex]
        exact Int.bmod_add_bmod
      obtain ⟨hcount, hgiven, -⟩ := ih hrest hnext hb
      obtain ⟨hsame, hb', ha'⟩ := of_store hstore
      rw [hsame]
      exact ⟨hcount, fun _ => hgiven hb', fun _ => ha'⟩

end StringArray

theorem endAddress_encoding (data : ℕ) (strings : List (List UInt8)) :
    data + (encodeStrings strings).length + (if strings.length = 0 then 1 else 0) =
      data + (encoding strings).length := by
  cases strings with
  | nil => rfl
  | cons string strings => rw [encoding, if_neg (by simp), if_neg (by simp), List.append_nil]; rfl

theorem decodes_of_lt (hlist : Listable strings) (h : memory.Holds data (encoding strings))
    (hcount : strings.length < 2 ^ 31)
    (hmalloc : strings = [] ∨ malloc (8 * strings.length) = true) :
    Decodes malloc memory data strings := by
  have hholds := (Memory.holds_append.mp h).1
  have hgiven : strings.length = 0 ∨ malloc (8 * strings.length) = true :=
    hmalloc.imp_left List.length_eq_zero_iff.mpr
  obtain ⟨a, ha, hrepresents⟩ := StringArray.parse_represents
    (construct_of_holds hlist hholds) hcount hgiven
  have hend := hrepresents.endAddress.trans (endAddress_encoding data strings)
  refine ⟨a, ha, hrepresents.count, fun i hi => ?_, hend⟩
  have hi' : i < (pointers data strings).length := by rwa [length_pointers]
  exact ⟨_, hrepresents.get hi', (stringAt_pointers hlist hholds).get hi' hi⟩

theorem of_decodes (hlist : Listable strings) (h : memory.Holds data (encoding strings))
    (hdecodes : Decodes malloc memory data strings) :
    strings.length < 2 ^ 31 ∧ (strings = [] ∨ malloc (8 * strings.length) = true) := by
  obtain ⟨a, ha, hcount, -⟩ := hdecodes
  obtain ⟨hkept, hgiven, harray⟩ := StringArray.of_parse
    (construct_of_holds hlist (Memory.holds_append.mp h).1) rfl ha
  dsimp only at hkept harray
  have hlt : strings.length < 2 ^ 31 := by
    have hrange := toInt_range strings.length
    omega
  refine ⟨hlt, ?_⟩
  by_cases hnil : strings = []
  · exact .inl hnil
  · have hpointers : pointers data strings ≠ [] := by
      rw [← List.length_pos_iff, length_pointers]
      exact List.length_pos_iff.mpr hnil
    have hsize : toSize (sizeofPointer * a.count) = 8 * strings.length := by
      rw [hcount, sizeofPointer, toSize_eq_self (by omega) (by omega)]
      omega
    rw [← hsize]
    exact .inr (hgiven (harray hpointers))

/-- The constructor decodes just the lists whose count is an `int` and whose array is given. -/
theorem stringList_decodes_iff (hlist : Listable strings)
    (h : memory.Holds data (encoding strings)) :
    Decodes malloc memory data strings ↔
      strings.length < 2 ^ 31 ∧ (strings = [] ∨ malloc (8 * strings.length) = true) :=
  ⟨of_decodes hlist h, fun hcond => decodes_of_lt hlist h hcond.1 hcond.2⟩

/-- Two strings, with another byte behind their list. -/
theorem stringList_decodes_two : Decodes (fun size => size ≤ 4096)
    (Memory.empty.write 5 (encoding [[97, 98], [99]] ++ [1])) 5 [[97, 98], [99]] := by
  have hholds := (Memory.holds_append.mp
    (Memory.holds_write Memory.empty 5 (encoding [[97, 98], [99]] ++ [1]))).1
  exact (stringList_decodes_iff (by decide) hholds).mpr ⟨by decide, .inr (by decide)⟩

/-- More strings than an `int` counts. -/
def uncountable : List (List UInt8) := List.replicate (2 ^ 31) [97]

/-- They are not counted, and no string is kept where `malloc` fails. -/
theorem uncountable_not_decoded :
    ¬ Decodes (fun _ => true) (Memory.empty.write 0 (encoding uncountable)) 0 uncountable ∧
      ¬ Decodes (fun _ => false) (Memory.empty.write 0 (encoding [[97]])) 0 [[97]] := by
  constructor
  · intro h
    have hlist : Listable uncountable := by
      intro string hstring
      rw [List.eq_of_mem_replicate hstring]
      decide
    have hlength : uncountable.length = 2 ^ 31 := List.length_replicate
    have hlt := (of_decodes hlist (Memory.holds_write _ _ _) h).1
    rw [hlength] at hlt
    exact Nat.lt_irrefl _ hlt
  · intro h
    rcases (of_decodes (by decide) (Memory.holds_write _ _ _) h).2 with hnil | hgiven
    · cases hnil
    · cases hgiven

end Redx.Smbios
