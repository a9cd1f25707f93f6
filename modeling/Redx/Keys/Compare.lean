import Redx.Library.Order
import Redx.Xuid.Agree

/-!
# The order of GUIDs and of integer keys

Both comparators subtract. `compare_guid` takes the first fields in which the GUIDs differ, but
the unsigned difference of the first field is only read as signed when it is returned as an `int`,
and `IntKey::compare` wraps.
-/
namespace Redx.Keys
open Library Xuid

/-- The loop over `data4`. -/
def compareData4 (left right : Fin 8 → UInt8) : List (Fin 8) → Int32
  | [] => 0
  | i :: is =>
    let d := (Int32.ofNat (left i).toNat - Int32.ofNat (right i).toNat).toInt64
    if d ≠ 0 then d.toInt32 else compareData4 left right is

/-- `compare_guid`. The first difference is one of `uint32_t`, the others are of promoted `int`s;
each goes through the `long` `d` to the `int` that is returned. -/
def compareGuid (left right : Guid) : Int32 :=
  let d := Int64.ofNat (left.data1 - right.data1).toNat
  if d ≠ 0 then d.toInt32 else
  let d := (Int32.ofNat left.data2.toNat - Int32.ofNat right.data2.toNat).toInt64
  if d ≠ 0 then d.toInt32 else
  let d := (Int32.ofNat left.data3.toNat - Int32.ofNat right.data3.toNat).toInt64
  if d ≠ 0 then d.toInt32 else
  compareData4 left.data4 right.data4 (List.finRange 8)

/-- `IntKey::compare` -/
def IntKey.compare (key that : Int32) : Int32 := key - that

/-- The text that `format_guid` writes. -/
def guidText (g : Guid) : List UInt8 := List.ofFn (formatGuid g)

/-- `compare_guid` orders the GUIDs of a set as their texts are ordered. -/
structure OrdersGuids (s : Set Guid) : Prop where
  orders : Orders (fun a b => (compareGuid a b).toInt) s
  text : ∀ a ∈ s, ∀ b ∈ s, (compareGuid a b).toInt < 0 ↔ guidText a < guidText b

/-- `IntKey::compare` orders the keys of a set. -/
def OrdersKeys (s : Set Int32) : Prop := Orders (fun a b => (IntKey.compare a b).toInt) s

/-- The fields after the first. -/
def fields (g : Guid) : List ℕ :=
  g.data2.toNat :: g.data3.toNat :: (List.finRange 8).map fun i => (g.data4 i).toNat

section Differences

theorem toInt_first (a b : UInt32) : (Int64.ofNat (a - b).toNat).toInt = ((a - b).toNat : ℤ) :=
  Int64.toInt_ofNat_of_lt (by have := (a - b).toNat_lt; omega)

/-- The sign of the difference of the first fields is that of the wrapped difference. -/
theorem toInt_wrapped (a b : UInt32) : (Int64.ofNat (a - b).toNat).toInt32.toInt =
    ((a.toNat : ℤ) - b.toNat).bmod (2 ^ 32) := by
  rw [Int64.toInt_toInt32, toInt_first, UInt32.toNat_sub]
  have := a.toNat_lt
  have := b.toNat_lt
  rw [Int.bmod_def, Int.bmod_def]
  omega

theorem toInt_promoted {m n : ℕ} (hm : m < 2 ^ 16) (hn : n < 2 ^ 16) :
    (Int32.ofNat m - Int32.ofNat n).toInt64.toInt = m - n := by
  rw [Int32.toInt_toInt64, Int32.toInt_sub, Int32.toInt_ofNat_of_lt (by omega),
    Int32.toInt_ofNat_of_lt (by omega)]
  exact Int.bmod_eq_of_le (by omega) (by omega)

/-- A difference of promoted fields is zero exactly when the fields are the same, and is returned
as it is. -/
theorem return_promoted {m n : ℕ} (hm : m < 2 ^ 16) (hn : n < 2 ^ 16) (rest : Int32) :
    (if (Int32.ofNat m - Int32.ofNat n).toInt64 ≠ 0 then
        (Int32.ofNat m - Int32.ofNat n).toInt64.toInt32 else rest).toInt =
      if (m : ℤ) - n ≠ 0 then (m : ℤ) - n else rest.toInt := by
  have hd := toInt_promoted hm hn
  have hzero : (Int32.ofNat m - Int32.ofNat n).toInt64 = 0 ↔ (m : ℤ) - n = 0 := by
    rw [← hd, ← Int64.toInt_inj]
    rfl
  by_cases h : (m : ℤ) - n = 0
  · rw [if_neg (not_not.mpr (hzero.mpr h)), if_neg (not_not.mpr h)]
  · rw [if_pos (hzero.not.mpr h), if_pos h, Int64.toInt_toInt32, hd]
    exact Int.bmod_eq_of_le (by omega) (by omega)

theorem compareData4_toInt (left right : Fin 8 → UInt8) (is : List (Fin 8)) :
    (compareData4 left right is).toInt = firstDifference (List.zipWith
      (fun x y : ℕ => (x : ℤ) - y) (is.map fun i => (left i).toNat)
        (is.map fun i => (right i).toNat)) := by
  induction is with
  | nil => rfl
  | cons i is ih =>
    have hl := (left i).toNat_lt
    have hr := (right i).toNat_lt
    rw [compareData4, return_promoted (by omega) (by omega), ih]
    rfl

/-- What `compare_guid` returns: the wrapped difference of the first fields, or else the first
difference of the others. -/
theorem compareGuid_toInt (left right : Guid) : (compareGuid left right).toInt =
    firstDifference (((left.data1.toNat : ℤ) - right.data1.toNat).bmod (2 ^ 32) ::
      List.zipWith (fun x y : ℕ => (x : ℤ) - y) (fields left) (fields right)) := by
  have h2 := left.data2.toNat_lt
  have h2' := right.data2.toNat_lt
  have h3 := left.data3.toNat_lt
  have h3' := right.data3.toNat_lt
  have hzero : Int64.ofNat (left.data1 - right.data1).toNat = 0 ↔
      ((left.data1.toNat : ℤ) - right.data1.toNat).bmod (2 ^ 32) = 0 := by
    rw [← toInt_wrapped, ← Int64.toInt_inj, toInt_first, Int64.toInt_toInt32, toInt_first]
    have := (left.data1 - right.data1).toNat_lt
    rw [Int.bmod_def]
    change ((_ : ℕ) : ℤ) = 0 ↔ _
    omega
  rw [compareGuid, firstDifference]
  by_cases h : ((left.data1.toNat : ℤ) - right.data1.toNat).bmod (2 ^ 32) = 0
  · rw [if_neg (not_not.mpr (hzero.mpr h)), if_neg (not_not.mpr h), return_promoted h2 h2',
      return_promoted h3 h3', compareData4_toInt]
    rfl
  · rw [if_pos (hzero.not.mpr h), if_pos h, toInt_wrapped]

end Differences

section Text

theorem hexchar_lt (i : ℕ) (hi : i < 16) (j : ℕ) (hj : j < 16) :
    hexchar i < hexchar j ↔ i < j := by
  have h : ∀ i j : Fin 16, hexchar i < hexchar j ↔ i.val < j.val := by decide +kernel
  exact h ⟨i, hi⟩ ⟨j, hj⟩

/-- The hexadecimal digits of a number. -/
abbrev hexDigits (width n : ℕ) : List UInt8 := digits 16 hexchar width n

theorem hexDigits_append_lt {width m n : ℕ} (hm : m < 16 ^ width) (hn : n < 16 ^ width)
    (l₁ l₂ : List UInt8) : hexDigits width m ++ l₁ < hexDigits width n ++ l₂ ↔
      m < n ∨ m = n ∧ l₁ < l₂ :=
  digits_append_lt_iff hexchar_lt hm hn l₁ l₂

theorem hexDigits_two (x : UInt8) : hexDigits 2 x.toNat =
    [hexchar ((x >>> 4) &&& 0xF).toNat, hexchar (x &&& 0xF).toNat] := by
  have hx := x.toNat_lt
  rw [nybble8, UInt8.toNat_and, show (0xF : UInt8).toNat = 15 from rfl, mask]
  simp only [hexDigits, digits, List.nil_append, List.cons_append]
  rw [Nat.mod_eq_of_lt (by omega : x.toNat / 16 < 16)]

theorem hexDigits_four (x : UInt16) : hexDigits 4 x.toNat =
    [hexchar ((x >>> 12) &&& 0xF).toNat, hexchar ((x >>> 8) &&& 0xF).toNat,
      hexchar ((x >>> 4) &&& 0xF).toNat, hexchar (x &&& 0xF).toNat] := by
  rw [nybble16 x (k := 12) (by decide), nybble16 x (k := 8) (by decide),
    nybble16 x (k := 4) (by decide), UInt16.toNat_and, show (0xF : UInt16).toNat = 15 from rfl,
    mask]
  simp only [hexDigits, digits, List.nil_append, List.cons_append, Nat.div_div_eq_div_mul]
  rfl

theorem hexDigits_eight (x : UInt32) : hexDigits 8 x.toNat =
    [hexchar ((x >>> 28) &&& 0xF).toNat, hexchar ((x >>> 24) &&& 0xF).toNat,
      hexchar ((x >>> 20) &&& 0xF).toNat, hexchar ((x >>> 16) &&& 0xF).toNat,
      hexchar ((x >>> 12) &&& 0xF).toNat, hexchar ((x >>> 8) &&& 0xF).toNat,
      hexchar ((x >>> 4) &&& 0xF).toNat, hexchar (x &&& 0xF).toNat] := by
  rw [nybble32 x (k := 28) (by decide), nybble32 x (k := 24) (by decide),
    nybble32 x (k := 20) (by decide), nybble32 x (k := 16) (by decide),
    nybble32 x (k := 12) (by decide), nybble32 x (k := 8) (by decide),
    nybble32 x (k := 4) (by decide), UInt32.toNat_and, show (0xF : UInt32).toNat = 15 from rfl,
    mask]
  simp only [hexDigits, digits, List.nil_append, List.cons_append, Nat.div_div_eq_div_mul]
  rfl

/-- The text field by field. -/
theorem guidText_eq (g : Guid) : guidText g = hexDigits 8 g.data1.toNat ++ 45 ::
    (hexDigits 4 g.data2.toNat ++ 45 :: (hexDigits 4 g.data3.toNat ++ 45 ::
      (hexDigits 2 (g.data4 0).toNat ++ (hexDigits 2 (g.data4 1).toNat ++ 45 ::
        (hexDigits 2 (g.data4 2).toNat ++ (hexDigits 2 (g.data4 3).toNat ++
          (hexDigits 2 (g.data4 4).toNat ++ (hexDigits 2 (g.data4 5).toNat ++
            (hexDigits 2 (g.data4 6).toNat ++ (hexDigits 2 (g.data4 7).toNat ++ [])))))))))) := by
  simp only [hexDigits_two, hexDigits_four, hexDigits_eight]
  rfl

/-- The texts are ordered by the fields. -/
theorem guidText_lt_iff (a b : Guid) : guidText a < guidText b ↔
    a.data1.toNat < b.data1.toNat ∨ a.data1.toNat = b.data1.toNat ∧ fields a < fields b := by
  have h1 (g : Guid) : g.data1.toNat < 16 ^ 8 := g.data1.toNat_lt
  have h2 (g : Guid) : g.data2.toNat < 16 ^ 4 := g.data2.toNat_lt
  have h3 (g : Guid) : g.data3.toNat < 16 ^ 4 := g.data3.toNat_lt
  have h4 (g : Guid) (i : Fin 8) : (g.data4 i).toNat < 16 ^ 2 := (g.data4 i).toNat_lt
  rw [guidText_eq, guidText_eq, hexDigits_append_lt (h1 a) (h1 b), List.cons_lt_cons_self,
    hexDigits_append_lt (h2 a) (h2 b), List.cons_lt_cons_self,
    hexDigits_append_lt (h3 a) (h3 b), List.cons_lt_cons_self,
    hexDigits_append_lt (h4 a 0) (h4 b 0), hexDigits_append_lt (h4 a 1) (h4 b 1),
    List.cons_lt_cons_self, hexDigits_append_lt (h4 a 2) (h4 b 2),
    hexDigits_append_lt (h4 a 3) (h4 b 3), hexDigits_append_lt (h4 a 4) (h4 b 4),
    hexDigits_append_lt (h4 a 5) (h4 b 5), hexDigits_append_lt (h4 a 6) (h4 b 6),
    hexDigits_append_lt (h4 a 7) (h4 b 7)]
  have hloop (g : Guid) : (List.finRange 8).map (fun i => (g.data4 i).toNat) =
      [(g.data4 0).toNat, (g.data4 1).toNat, (g.data4 2).toNat, (g.data4 3).toNat,
        (g.data4 4).toNat, (g.data4 5).toNat, (g.data4 6).toNat, (g.data4 7).toNat] := rfl
  simp only [fields, hloop, List.cons_lt_cons_iff, List.not_lt_nil]

end Text

section Guids

/-- All the numbers of a GUID, in the order in which they are compared. -/
def key (g : Guid) : List ℕ := g.data1.toNat :: fields g

theorem key_injective {a b : Guid} (h : key a = key b) : a = b := by
  simp only [key, fields, List.cons.injEq] at h
  obtain ⟨h1, h2, h3, h4⟩ := h
  have hdata4 : a.data4 = b.data4 := by
    funext i
    exact UInt8.toNat_inj.mp (List.map_inj_left.mp h4 i (List.mem_finRange i))
  obtain ⟨_, _, _, _⟩ := a
  obtain ⟨_, _, _, _⟩ := b
  rw [Guid.mk.injEq]
  exact ⟨UInt32.toNat_inj.mp h1, UInt16.toNat_inj.mp h2, UInt16.toNat_inj.mp h3, hdata4⟩

theorem guidText_lt_iff_key (a b : Guid) : guidText a < guidText b ↔ key a < key b := by
  rw [guidText_lt_iff, key, key, List.cons_lt_cons_iff]

/-- Less than half of the range apart. -/
def Near (a b : Guid) : Prop := ((a.data1.toNat : ℤ) - b.data1.toNat).natAbs < 2 ^ 31

variable {a b : Guid}

theorem Near.compareGuid_toInt (h : Near a b) : (compareGuid a b).toInt =
    firstDifference (List.zipWith (fun x y : ℕ => (x : ℤ) - y) (key a) (key b)) := by
  rw [Keys.compareGuid_toInt, Near] at *
  rw [Int.bmod_eq_of_le (by omega) (by omega)]
  rfl

theorem Near.neg_iff (h : Near a b) : (compareGuid a b).toInt < 0 ↔ key a < key b := by
  rw [h.compareGuid_toInt]
  exact firstDifference_neg_iff (by simp [key, fields])

theorem Near.pos_iff (h : Near a b) : 0 < (compareGuid a b).toInt ↔ key b < key a := by
  rw [h.compareGuid_toInt, firstDifference_swap, Int.neg_pos]
  exact firstDifference_neg_iff (by simp [key, fields])

/-- The wrapped difference has the wrong sign when the first field is half of the range above. -/
theorem compareGuid_far (h : 2 ^ 31 ≤ (a.data1.toNat : ℤ) - b.data1.toNat) :
    (compareGuid a b).toInt < 0 := by
  have ha := a.data1.toNat_lt
  have hwrapped : ((a.data1.toNat : ℤ) - b.data1.toNat).bmod (2 ^ 32) < 0 := by
    rw [Int.bmod_def]
    omega
  rw [Keys.compareGuid_toInt, firstDifference, if_pos hwrapped.ne]
  exact hwrapped

theorem ordersGuids_iff (s : Set Guid) : OrdersGuids s ↔ ∀ a ∈ s, ∀ b ∈ s, Near a b := by
  constructor
  · intro h
    have hhigh : ∀ a ∈ s, ∀ b ∈ s, (a.data1.toNat : ℤ) - b.data1.toNat < 2 ^ 31 := by
      intro a ha b hb
      by_contra hfar
      rw [Int.not_lt] at hfar
      have hlt := (h.text a ha b hb).mp (compareGuid_far hfar)
      have hgt : guidText b < guidText a := (guidText_lt_iff b a).mpr (.inl (by omega))
      exact List.lt_asymm hlt hgt
    intro a ha b hb
    have h1 := hhigh a ha b hb
    have h2 := hhigh b hb a ha
    rw [Near]
    omega
  · intro h
    refine ⟨.of_key key (fun a _ b _ hk => key_injective hk) ?_ ?_, ?_⟩
    · exact fun a ha b hb => (h a ha b hb).neg_iff
    · exact fun a ha b hb => (h a ha b hb).pos_iff
    · intro a ha b hb
      rw [guidText_lt_iff_key]
      exact (h a ha b hb).neg_iff

end Guids

instance finite_int32 : Finite Int32 := Finite.of_injective (fun x => x.toBitVec.toFin) fun _ _ h =>
  Int32.toBitVec_inj.mp (BitVec.toFin_inj.mp h)

theorem ordersKeys_iff (s : Set Int32) : OrdersKeys s ↔
    ∃ t : ℤ, ∀ k ∈ s, (k.toInt - t) % 2 ^ 32 < 2 ^ 31 := by
  have hcompare : (fun a b : Int32 => (IntKey.compare a b).toInt) =
      fun a b => (a.toInt - b.toInt).bmod (2 * 2 ^ 31) := by
    funext a b
    exact Int32.toInt_sub a b
  rw [OrdersKeys, hcompare]
  refine orders_bmod_iff (by decide) fun a b h => ?_
  have := a.le_toInt
  have := a.toInt_lt
  have := b.le_toInt
  have := b.toInt_lt
  rw [← Int32.toInt_inj]
  omega

/-- `compare_guid` orders a set of GUIDs by their texts exactly when the first fields of any two
are less than half of the range apart, and `IntKey::compare` orders a set of keys exactly when
they lie in half of the circle of the `int`s. -/
theorem keys_order_iff (guids : Set Guid) (keys : Set Int32) :
    (OrdersGuids guids ↔ ∀ a ∈ guids, ∀ b ∈ guids,
      ((a.data1.toNat : ℤ) - b.data1.toNat).natAbs < 2 ^ 31) ∧
    (OrdersKeys keys ↔ ∃ t : ℤ, ∀ k ∈ keys, (k.toInt - t) % 2 ^ 32 < 2 ^ 31) :=
  ⟨ordersGuids_iff guids, ordersKeys_iff keys⟩

/-- Two GUIDs that both come before each other, and three keys that go around the circle. -/
theorem keys_not_ordered : ¬ OrdersGuids Set.univ ∧ ¬ OrdersKeys Set.univ := by
  constructor
  · intro h
    have hswap := h.orders.sign_swap ⟨0, 0, 0, fun _ => 0⟩ trivial ⟨0x80000000, 0, 0, fun _ => 0⟩
      trivial
    exact absurd hswap (by decide)
  · intro h
    have htrans := h.trans (-0x7FFFFFFF) trivial 0 trivial 0x7FFFFFFF trivial (by decide)
      (by decide)
    exact absurd htrans (by decide)

end Redx.Keys
