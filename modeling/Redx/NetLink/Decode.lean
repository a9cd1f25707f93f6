import Redx.NetLink.Attributes
import Redx.Library.Store

/-!
# The attributes that a message object keeps

The array `attr` of a message object is to hold, at each type, the last attribute of that type.
The loop that fills it does just that; what follows the loop treats the two types of addresses
alike, also in the messages about links, where these types mean something else.
-/
namespace Redx.NetLink
open Library

def iflaAddress : ℕ := 1

/-- The attribute up to the padding. -/
def Attribute.unpadded (a : Attribute) : List UInt8 :=
  bytesOf 2 a.length ++ bytesOf 2 a.type ++ a.payload

/-- From an address on the memory holds these attributes, and they take up the length. The padding
of the last one may be missing. -/
inductive Laid (memory : ℕ → UInt8) : ℕ → ℤ → List Attribute → Prop
  | nil {ra : ℕ} {length : ℤ} : length ≤ 0 → Laid memory ra length []
  | cons {ra : ℕ} {length : ℤ} {a : Attribute} {as : List Attribute} :
      Holds memory ra a.unpadded → a.length ≤ length →
      Laid memory (ra + rtaAlign a.length) (length - rtaAlign a.length) as →
      Laid memory ra length (a :: as)

/-- The address of the last attribute of a type, of attributes that start at an address. -/
def lastAt : ℕ → List Attribute → ℕ → Option ℕ
  | _, [], _ => none
  | ra, a :: as, t =>
    match lastAt (ra + rtaAlign a.length) as t with
    | none => if a.type = t then some ra else none
    | some x => some x

/-- What some attributes take up with their padding. -/
def sizeOf (as : List Attribute) : ℕ := (as.map fun a => rtaAlign a.length).sum

/-- The last attribute of a type. -/
def lastOf : List Attribute → ℕ → Option Attribute
  | [], _ => none
  | a :: as, t =>
    match lastOf as t with
    | none => if a.type = t then some a else none
    | some b => some b

/-- What is left of `length` once the loop over the attributes ends. -/
def remnant (memory : ℕ → UInt8) : ℕ → ℕ → ℤ → Option ℤ
  | 0, _, _ => none
  | fuel + 1, ra, length =>
    if RtaOk memory ra length then
      remnant memory fuel (ra + rtaAlign (rtaLen memory ra)) (length - rtaAlign (rtaLen memory ra))
    else some length

/-- `NewLink::MAC`: what `RTA_DATA` points at, or nothing where it returns zeros. -/
def Attr.mac (attr : Attr) : Option ℕ :=
  if attr.entries iflaAddress = 0 then none
  else some (attr.entries iflaAddress + sizeofAttribute)

/-- The array has, at each type of a link attribute, the last attribute of that type or NULL, and
the address of the link comes from the one that carries it. -/
def Attr.Decodes (attr : Attr) (c : Constants) (ra : ℕ) (as : List Attribute) : Prop :=
  (∀ t, 1 ≤ t → t ≤ c.iflaMax → attr.entries t = (lastAt ra as t).getD 0) ∧
    attr.mac = (lastAt ra as iflaAddress).map (· + sizeofAttribute)

/-- Some attribute of the list has the type. -/
def Occurs (as : List Attribute) (t : ℕ) : Prop := ∃ a ∈ as, a.type = t

variable {memory : ℕ → UInt8} {guard fuel ra h i t x : ℕ} {length : ℤ} {attr attr' : Attr}
  {c : Constants} {a : Attribute} {as : List Attribute}

@[simp] theorem occurs_nil : ¬ Occurs [] t := by simp [Occurs]

@[simp] theorem occurs_cons : Occurs (a :: as) t ↔ a.type = t ∨ Occurs as t := by
  simp [Occurs]

theorem lastAt_isSome (ra : ℕ) : (lastAt ra as t).isSome ↔ Occurs as t := by
  induction as generalizing ra with
  | nil => simp [lastAt]
  | cons a as ih =>
    rw [lastAt, occurs_cons, ← ih (ra + rtaAlign a.length)]
    cases lastAt (ra + rtaAlign a.length) as t with
    | none => by_cases ht : a.type = t <;> simp [ht]
    | some x => simp

theorem lastOf_isSome : (lastOf as t).isSome ↔ Occurs as t := by
  induction as with
  | nil => simp [lastOf]
  | cons a as ih =>
    rw [lastOf, occurs_cons, ← ih]
    cases lastOf as t with
    | none => by_cases ht : a.type = t <;> simp [ht]
    | some x => simp

theorem le_of_lastAt (hx : lastAt ra as t = some x) : ra ≤ x := by
  induction as generalizing ra with
  | nil => cases hx
  | cons a as ih =>
    rw [lastAt] at hx
    cases hlast : lastAt (ra + rtaAlign a.length) as t with
    | none =>
      rw [hlast] at hx
      by_cases ht : a.type = t
      · simp only [ht, if_true, Option.some.injEq] at hx
        exact hx.le
      · simp [ht] at hx
    | some y =>
      rw [hlast] at hx
      obtain rfl := Option.some.inj hx
      exact (Nat.le_add_right ..).trans (ih hlast)

theorem lastAt_eq_zero (hra : 0 < ra) : (lastAt ra as t).getD 0 = 0 ↔ ¬ Occurs as t := by
  rw [← lastAt_isSome ra]
  cases hlast : lastAt ra as t with
  | none => simp
  | some x =>
    have := le_of_lastAt hlast
    simp only [Option.getD_some, Option.isSome_some, not_true_eq_false, iff_false]
    omega

/-- The header of the first of some attributes in memory is in order and says what it is. -/
theorem rta_of_laid (hl : Laid memory ra length (a :: as)) :
    RtaOk memory ra length ∧ rtaLen memory ra = a.length ∧ rtaType memory ra = a.type ∧
      Laid memory (ra + rtaAlign a.length) (length - rtaAlign a.length) as := by
  obtain _ | ⟨hm, hle, hrest⟩ := hl
  simp only [Attribute.unpadded, holds_append, length_bytesOf] at hm
  obtain ⟨⟨hlen, htype⟩, -⟩ := hm
  have hlen' : rtaLen memory ra = a.length := by
    rw [rtaLen, valueAt_of_holds hlen]
    exact Nat.mod_eq_of_lt a.length_lt
  have htype' : rtaType memory ra = a.type := by
    rw [rtaType, valueAt_of_holds htype]
    exact Nat.mod_eq_of_lt a.type_lt
  have hsize : sizeofAttribute ≤ a.length := Nat.le_add_right ..
  refine ⟨⟨?_, ?_, ?_⟩, hlen', htype', hrest⟩
  · omega
  · rwa [hlen']
  · rwa [hlen']

theorem not_rtaOk_of_laid (hl : Laid memory ra length []) : ¬ RtaOk memory ra length := by
  obtain ⟨hle⟩ := hl
  intro hok
  have := hok.1
  simp only [sizeofAttribute] at this
  omega

/-- Where the last attribute of a type is. -/
theorem lastAt_of_lastOf (hl : Laid memory ra length as) (ha : lastOf as t = some a) :
    ∃ x, lastAt ra as t = some x ∧ Holds memory x a.unpadded := by
  induction as generalizing ra length with
  | nil => cases ha
  | cons b as ih =>
    obtain _ | ⟨hm, -, hrest⟩ := hl
    rw [lastOf] at ha
    rw [lastAt]
    cases hlast : lastOf as t with
    | some a' =>
      obtain rfl : a' = a := by simpa [hlast] using ha
      obtain ⟨x, hx, hholds⟩ := ih hrest hlast
      exact ⟨x, by rw [hx], hholds⟩
    | none =>
      have hnone : lastAt (ra + rtaAlign b.length) as t = none := by
        rw [← Option.not_isSome_iff_eq_none, lastAt_isSome, ← lastOf_isSome, hlast]
        decide
      rw [hnone]
      by_cases ht : b.type = t
      · obtain rfl : b = a := by simpa [hlast, ht] using ha
        exact ⟨ra, if_pos ht, hm⟩
      · simp [hlast, ht] at ha

theorem Laid.congr {memory' : ℕ → UInt8} {ra' : ℕ} (hl : Laid memory ra length as)
    (hsame : ∀ i < sizeOf as, memory' (ra' + i) = memory (ra + i)) :
    Laid memory' ra' length as := by
  induction hl generalizing ra' with
  | nil hle => exact .nil hle
  | @cons ra length a as hm hle _ ih =>
    have hsize : sizeOf (a :: as) = rtaAlign a.length + sizeOf as := rfl
    have hfits : a.unpadded.length ≤ rtaAlign a.length := by
      simp only [Attribute.unpadded, Attribute.length, sizeofAttribute, rtaAlign,
        List.length_append, length_bytesOf]
      omega
    refine .cons (hm.congr fun i hi => hsame i (by omega)) hle (ih fun i hi => ?_)
    rw [Nat.add_assoc, Nat.add_assoc]
    exact hsame _ (by omega)

theorem Laid.append {bs : List Attribute} (hpos : 0 ≤ length) (ha : Laid memory ra (sizeOf as) as)
    (hb : Laid memory (ra + sizeOf as) length bs) :
    Laid memory ra (sizeOf as + length) (as ++ bs) := by
  induction as generalizing ra with
  | nil => simpa [sizeOf] using hb
  | cons a as ih =>
    obtain _ | ⟨hm, hle, hrest⟩ := ha
    have hsize : sizeOf (a :: as) = rtaAlign a.length + sizeOf as := rfl
    have hle' := a.length_le_align
    have hsub : (sizeOf (a :: as) : ℤ) - rtaAlign a.length = sizeOf as := by omega
    have hsub' : (sizeOf (a :: as) : ℤ) + length - rtaAlign a.length = sizeOf as + length := by
      omega
    rw [hsub] at hrest
    rw [hsize, ← Nat.add_assoc] at hb
    exact .cons hm (by omega) (hsub' ▸ ih hrest hb)

/-- The loop leaves, at each type up to the guard, the last attribute of that type. -/
theorem parse_of_laid (hl : Laid memory ra length as)
    (hp : parse memory guard fuel ra length attr = some attr') (hi : i ≤ guard) :
    attr'.entries i = (lastAt ra as i).getD (attr.entries i) := by
  induction as generalizing fuel ra length attr with
  | nil =>
    cases fuel with
    | zero => cases hp
    | succ fuel =>
      rw [parse, if_neg (not_rtaOk_of_laid hl), Option.some.injEq] at hp
      rw [hp]
      rfl
  | cons a as ih =>
    obtain ⟨hok, hlen, htype, hrest⟩ := rta_of_laid hl
    cases fuel with
    | zero => cases hp
    | succ fuel =>
      rw [parse, if_pos hok, hlen, htype] at hp
      rw [ih hrest hp, lastAt]
      cases lastAt (ra + rtaAlign a.length) as i with
      | some x => rfl
      | none =>
        by_cases ht : a.type = i
        · subst ht
          simp [hi, Attr.store]
        · by_cases hle : a.type ≤ guard
          · simp [hle, ht, Attr.store, Function.update_of_ne (Ne.symm ht)]
          · simp [hle, ht]

/-- No bytes are left over. -/
theorem remnant_of_laid (hl : Laid memory ra length as) (hfuel : as.length < fuel) :
    ∃ rest, remnant memory fuel ra length = some rest ∧ rest ≤ 0 := by
  induction as generalizing fuel ra length with
  | nil =>
    obtain ⟨fuel, rfl⟩ := Nat.exists_eq_succ_of_ne_zero (Nat.ne_zero_of_lt hfuel)
    obtain ⟨hle⟩ := id hl
    exact ⟨length, by rw [remnant, if_neg (not_rtaOk_of_laid hl)], hle⟩
  | cons a as ih =>
    obtain ⟨fuel, rfl⟩ := Nat.exists_eq_succ_of_ne_zero (Nat.ne_zero_of_lt hfuel)
    obtain ⟨hok, hlen, -, hrest⟩ := rta_of_laid hl
    rw [remnant, if_pos hok, hlen]
    exact ih hrest (Nat.lt_of_succ_lt_succ hfuel)

/-- What the two lines behind the loop make of the array. -/
theorem Attr.fill_entries (attr : Attr) (i : ℕ) : attr.fill.entries i =
    if attr.entries ifaLocal = 0 ∧ i = ifaLocal then attr.entries ifaAddress
    else if attr.entries ifaAddress = 0 ∧ i = ifaAddress then attr.entries ifaLocal
    else attr.entries i := by
  have hne : ifaAddress ≠ ifaLocal := by decide
  by_cases hlocal : attr.entries ifaLocal = 0 <;>
    by_cases haddress : attr.entries ifaAddress = 0 <;>
      simp only [Attr.fill, Attr.store, hlocal, haddress, hne, Function.update_apply, if_true,
        if_false, true_and, false_and]
  all_goals by_cases hi : i = ifaAddress
  all_goals simp_all

/-- The lines do nothing when both or neither of the two attributes are there. -/
theorem Attr.fill_entries_of_iff
    (h : attr.entries ifaAddress = 0 ↔ attr.entries ifaLocal = 0) (i : ℕ) :
    attr.fill.entries i = attr.entries i := by
  rw [Attr.fill_entries]
  split_ifs with hlocal haddress
  · rw [hlocal.2, hlocal.1, h.mpr hlocal.1]
  · rw [haddress.2, haddress.1, h.mp haddress.1]
  · rfl

/-- The length of the attributes behind the fixed part, as the constructors compute it. -/
theorem attributesLength_eq {base n : ℕ} (hlen : nlmsgLen memory h = sizeofHeader + base + n)
    (hlt : n < 2 ^ 31) : attributesLength memory h base = n := by
  rw [attributesLength, hlen, Nat.cast_add, add_sub_cancel_left]
  exact Int.bmod_eq_of_le (by omega) (by omega)

/-- What the constructors share, on a message with given attributes. -/
theorem attributes_of_laid (guard : ℕ) {base n : ℕ}
    (hl : Laid memory (h + sizeofHeader + base) n as)
    (hlen : nlmsgLen memory h = sizeofHeader + base + n) (hlt : n < 2 ^ 31) :
    ∃ attr, attributes memory h base guard = some attr ∧
      ∀ t ≤ guard, attr.entries t = (lastAt (h + sizeofHeader + base) as t).getD 0 := by
  obtain ⟨attr, hattr⟩ : ∃ attr, attributes memory h base guard = some attr :=
    parse_finishes (Nat.lt_succ_self (attributesLength memory h base).toNat)
  refine ⟨attr, hattr, fun t ht => ?_⟩
  rw [attributes, attributesLength_eq hlen hlt] at hattr
  exact parse_of_laid hl hattr ht

/-- A link message is decoded as it should be if and only if it carries both or neither of an
address and a broadcast address, the attributes of the types one and two. -/
theorem linkMessage_decodes_iff {n : ℕ}
    (hl : Laid memory (h + sizeofHeader + sizeofIfinfomsg) n as)
    (hlen : nlmsgLen memory h = sizeofHeader + sizeofIfinfomsg + n) (hlt : n < 2 ^ 31) :
    (∃ attr, linkMessage c memory h = some attr ∧
      attr.Decodes c (h + sizeofHeader + sizeofIfinfomsg) as) ↔
    (Occurs as 1 ↔ Occurs as 2) := by
  obtain ⟨attr, hattr, hentries⟩ := attributes_of_laid c.iflaMax hl hlen hlt
  have hmax := c.ifaLocal_le_iflaMax
  have hra : 0 < h + sizeofHeader + sizeofIfinfomsg := by
    simp only [sizeofHeader]
    omega
  have hzero : ∀ t ≤ c.iflaMax, attr.entries t = 0 ↔ ¬ Occurs as t := fun t ht => by
    rw [hentries t ht, lastAt_eq_zero hra]
  have haddress := hzero ifaAddress ((show ifaAddress ≤ ifaLocal by decide).trans hmax)
  have hlocal := hzero ifaLocal hmax
  rw [linkMessage, hattr, Option.map_some]
  simp only [Option.some.injEq, exists_eq_left']
  constructor
  · rintro ⟨hall, -⟩
    have hsame : ∀ t, 1 ≤ t → t ≤ c.iflaMax → attr.fill.entries t = attr.entries t :=
      fun t hpos ht => (hall t hpos ht).trans (hentries t ht).symm
    have h₁ := hsame ifaAddress le_rfl ((show ifaAddress ≤ ifaLocal by decide).trans hmax)
    have h₂ := hsame ifaLocal (by decide) hmax
    rw [Attr.fill_entries] at h₁ h₂
    refine not_iff_not.mp
      (haddress.symm.trans (Iff.trans ⟨fun hzero => ?_, fun hzero => ?_⟩ hlocal))
    · simpa [hzero, show ifaAddress ≠ ifaLocal by decide] using h₁
    · simpa [hzero] using h₂
  · intro hiff
    have hfill := Attr.fill_entries_of_iff (haddress.trans ((not_congr hiff).trans hlocal.symm))
    refine ⟨fun t _ ht => (hfill t).trans (hentries t ht), ?_⟩
    have hmac : attr.fill.entries iflaAddress = _ :=
      (hfill _).trans (hentries iflaAddress ((show ifaAddress ≤ ifaLocal by decide).trans hmax))
    rw [Attr.mac, hmac]
    cases hlast : lastAt (h + sizeofHeader + sizeofIfinfomsg) as iflaAddress with
    | none => rfl
    | some x =>
      have := le_of_lastAt hlast
      rw [Option.getD_some, if_neg (by omega), Option.map_some]

/-- A message about a link with the broadcast address ff:ff:ff:ff:ff:ff and nothing else. -/
def broadcast : Attribute where
  type := 2
  payload := List.replicate 6 255
  type_lt := by decide
  length_lt := by decide

def broadcastLink : List UInt8 :=
  bytesOf 4 42 ++ bytesOf 2 16 ++ List.replicate 10 0 ++ List.replicate 16 0 ++ broadcast.unpadded

theorem laid_broadcast : Laid (fun i => broadcastLink.getD i 0) 32 10 [broadcast] :=
  .cons ((holds_append.mp (holds_getD broadcastLink)).2) (by decide) (.nil (by decide))

theorem linkMessage_decodes_iff_broadcast :
    (∃ attr, linkMessage linux (fun i => broadcastLink.getD i 0) 0 = some attr ∧
      attr.Decodes linux 32 [broadcast]) ↔ (Occurs [broadcast] 1 ↔ Occurs [broadcast] 2) :=
  linkMessage_decodes_iff (n := 10) laid_broadcast (by decide) (by decide)

/-- The broadcast address is taken for the address of the link. -/
theorem broadcast_not_decoded :
    ¬ ∃ attr, linkMessage linux (fun i => broadcastLink.getD i 0) 0 = some attr ∧
      attr.Decodes linux 32 [broadcast] := by
  rintro ⟨attr, hattr, -, hmac⟩
  have hvalue : (linkMessage linux (fun i => broadcastLink.getD i 0) 0).map Attr.mac =
      some (some 36) := by decide +kernel
  rw [hattr, Option.map_some, hmac] at hvalue
  exact absurd hvalue (by decide)

end Redx.NetLink
