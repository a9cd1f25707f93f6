import Redx.NetLink.Datagram
import Mathlib.Logic.Function.Basic

/-!
# Route attributes of a message

Five constructors walk over the attributes that follow the fixed part of a message and keep, in
an array `attr` indexed by type, a pointer to the last one of each type. Each compares the type
with one constant of the Linux headers and declares its array with one; they are not always the
same. `RTA_OK` and `RTA_NEXT` are the macros of the Linux headers, on a length that is an `int`.
-/
namespace Redx.NetLink
open Library

/-- `sizeof(struct rtattr)` -/
def sizeofAttribute : ℕ := 4

/-- `RTA_ALIGN` -/
def rtaAlign (length : ℕ) : ℕ := (length + 3) / 4 * 4

/-- `ra->rta_len` -/
def rtaLen (memory : ℕ → UInt8) (ra : ℕ) : ℕ := valueAt memory ra 2

/-- `ra->rta_type` -/
def rtaType (memory : ℕ → UInt8) (ra : ℕ) : ℕ := valueAt memory (ra + 2) 2

/-- `RTA_OK(ra, length)` -/
def RtaOk (memory : ℕ → UInt8) (ra : ℕ) (length : ℤ) : Prop :=
  sizeofAttribute ≤ length ∧ sizeofAttribute ≤ rtaLen memory ra ∧ rtaLen memory ra ≤ length

instance (memory : ℕ → UInt8) (ra : ℕ) (length : ℤ) : Decidable (RtaOk memory ra length) :=
  inferInstanceAs (Decidable (_ ∧ _ ∧ _))

/-- The array `attr`, NULL as 0, and the indices stored at since it was cleared. -/
structure Attr where
  entries : ℕ → ℕ
  stores : List ℕ

def Attr.cleared : Attr := { entries := fun _ => 0, stores := [] }

def Attr.store (attr : Attr) (index pointer : ℕ) : Attr where
  entries := Function.update attr.entries index pointer
  stores := attr.stores ++ [index]

/-- The loop over the attributes, a unit of fuel for each; `guard` is the constant that the type
is compared with. -/
def parse (memory : ℕ → UInt8) (guard : ℕ) : ℕ → ℕ → ℤ → Attr → Option Attr
  | 0, _, _, _ => none
  | fuel + 1, ra, length, attr =>
    if RtaOk memory ra length then
      let attr := if rtaType memory ra ≤ guard then attr.store (rtaType memory ra) ra else attr
      parse memory guard fuel (ra + rtaAlign (rtaLen memory ra))
        (length - rtaAlign (rtaLen memory ra)) attr
    else some attr

def sizeofIfinfomsg : ℕ := 16
def sizeofIfaddrmsg : ℕ := 8
def sizeofRtmsg : ℕ := 12
def sizeofNdmsg : ℕ := 12

/-- `int length = hdr->nlmsg_len - NLMSG_LENGTH( base )` -/
def attributesLength (memory : ℕ → UInt8) (h base : ℕ) : ℤ :=
  ((nlmsgLen memory h : ℤ) - (sizeofHeader + base : ℕ)).bmod (2 ^ 32)

/-- What the constructors share: the array is cleared and filled from the attributes that follow
`base` bytes after the header. -/
def attributes (memory : ℕ → UInt8) (h base guard : ℕ) : Option Attr :=
  let length := attributesLength memory h base
  parse memory guard (length.toNat + 1) (h + sizeofHeader + base) length .cleared

def ifaAddress : ℕ := 1
def ifaLocal : ℕ := 2

/-- The end of two of the constructors: a missing local address is taken from the other one, and
the other way round. -/
def Attr.fill (attr : Attr) : Attr :=
  let attr := if attr.entries ifaLocal = 0 then
    attr.store ifaLocal (attr.entries ifaAddress) else attr
  if attr.entries ifaAddress = 0 then attr.store ifaAddress (attr.entries ifaLocal) else attr

/-- The constants of the Linux headers, which differ between versions. -/
structure Constants where
  iflaMax : ℕ
  ifaMax : ℕ
  rtaMax : ℕ
  ndaMax : ℕ
  ifaLocal_le_iflaMax : ifaLocal ≤ iflaMax
  ifaLocal_le_ifaMax : ifaLocal ≤ ifaMax
  ifaMax_lt_rtaMax : ifaMax < rtaMax
  ndaMax_lt_rtaMax : ndaMax < rtaMax

def linkMessage (c : Constants) (memory : ℕ → UInt8) (h : ℕ) : Option Attr :=
  (attributes memory h sizeofIfinfomsg c.iflaMax).map .fill

def addressMessage (c : Constants) (memory : ℕ → UInt8) (h : ℕ) : Option Attr :=
  (attributes memory h sizeofIfaddrmsg c.rtaMax).map .fill

def newRoute (c : Constants) (memory : ℕ → UInt8) (h : ℕ) : Option Attr :=
  attributes memory h sizeofRtmsg c.rtaMax

def delRoute (c : Constants) (memory : ℕ → UInt8) (h : ℕ) : Option Attr :=
  attributes memory h sizeofRtmsg c.rtaMax

def neighborMessage (c : Constants) (memory : ℕ → UInt8) (h : ℕ) : Option Attr :=
  attributes memory h sizeofNdmsg c.rtaMax

/-- The classes with an array `attr`. -/
inductive Parsed where
  | linkMessage
  | addressMessage
  | newRoute
  | delRoute
  | neighborMessage
  deriving DecidableEq, Repr

namespace Parsed

def construct : Parsed → Constants → (ℕ → UInt8) → ℕ → Option Attr
  | .linkMessage => NetLink.linkMessage
  | .addressMessage => NetLink.addressMessage
  | .newRoute => NetLink.newRoute
  | .delRoute => NetLink.delRoute
  | .neighborMessage => NetLink.neighborMessage

/-- The number of elements that the class declares. -/
def elements (c : Constants) : Parsed → ℕ
  | .linkMessage => c.iflaMax + 1
  | .addressMessage => c.ifaMax + 1
  | .newRoute => c.rtaMax + 1
  | .delRoute => c.rtaMax + 1
  | .neighborMessage => c.ndaMax + 1

def base : Parsed → ℕ
  | .linkMessage => sizeofIfinfomsg
  | .addressMessage => sizeofIfaddrmsg
  | .newRoute => sizeofRtmsg
  | .delRoute => sizeofRtmsg
  | .neighborMessage => sizeofNdmsg

end Parsed

/-- The loop that starts at `ra` comes to the attribute at `x`. -/
inductive Visits (memory : ℕ → UInt8) (x : ℕ) : ℕ → ℤ → Prop
  | here {length : ℤ} : RtaOk memory x length → Visits memory x x length
  | later {ra : ℕ} {length : ℤ} : RtaOk memory ra length →
      Visits memory x (ra + rtaAlign (rtaLen memory ra))
        (length - rtaAlign (rtaLen memory ra)) → Visits memory x ra length

/-- The constructor comes to the attribute at `x`. -/
def Parsed.Reads (m : Parsed) (memory : ℕ → UInt8) (h x : ℕ) : Prop :=
  Visits memory x (h + sizeofHeader + m.base) (attributesLength memory h m.base)

/-- The constructor finishes and has stored at elements of its array only. -/
def Parsed.InBounds (m : Parsed) (c : Constants) (memory : ℕ → UInt8) (h : ℕ) : Prop :=
  ∃ attr, m.construct c memory h = some attr ∧ ∀ i ∈ attr.stores, i < m.elements c

/-- An attribute: its type and what follows its four byte header. -/
structure Attribute where
  type : ℕ
  payload : List UInt8
  type_lt : type < 2 ^ 16
  length_lt : sizeofAttribute + payload.length < 2 ^ 16

def Attribute.length (a : Attribute) : ℕ := sizeofAttribute + a.payload.length

variable {memory : ℕ → UInt8} {guard fuel ra h base i x : ℕ} {length : ℤ} {attr attr' : Attr}
  {c : Constants} {m : Parsed}

@[simp] theorem Attr.mem_store {p : ℕ} :
    i ∈ (attr.store x p).stores ↔ i ∈ attr.stores ∨ i = x := by
  simp [Attr.store]

theorem RtaOk.align_pos (hok : RtaOk memory ra length) :
    0 < rtaAlign (rtaLen memory ra) := by
  have := hok.2.1
  simp only [sizeofAttribute, rtaAlign] at *
  omega

theorem visits_iff (hok : RtaOk memory ra length) : Visits memory x ra length ↔
    x = ra ∨ Visits memory x (ra + rtaAlign (rtaLen memory ra))
      (length - rtaAlign (rtaLen memory ra)) := by
  constructor
  · rintro (_ | ⟨_, hv⟩)
    · exact .inl rfl
    · exact .inr hv
  · rintro (rfl | hv)
    · exact .here hok
    · exact .later hok hv

theorem not_visits (hok : ¬ RtaOk memory ra length) : ¬ Visits memory x ra length := by
  rintro (h | ⟨h, -⟩) <;> exact hok h

/-- Every attribute takes something off the length, so the loop ends. -/
theorem parse_finishes (hfuel : length.toNat < fuel) :
    ∃ attr', parse memory guard fuel ra length attr = some attr' := by
  induction fuel generalizing ra length attr with
  | zero => omega
  | succ fuel ih =>
    rw [parse]
    by_cases hok : RtaOk memory ra length
    · rw [if_pos hok]
      have hpos := hok.align_pos
      have hlen := hok.1
      simp only [sizeofAttribute] at hlen
      exact ih (by omega)
    · rw [if_neg hok]
      exact ⟨_, rfl⟩

/-- The loop stores at the types, up to the guard, of the attributes that it comes to. -/
theorem parse_stores (h : parse memory guard fuel ra length attr = some attr') :
    i ∈ attr'.stores ↔ i ∈ attr.stores ∨
      ∃ x, Visits memory x ra length ∧ rtaType memory x = i ∧ i ≤ guard := by
  induction fuel generalizing ra length attr with
  | zero => cases h
  | succ fuel ih =>
    rw [parse] at h
    by_cases hok : RtaOk memory ra length
    · rw [if_pos hok] at h
      rw [ih h]
      simp only [visits_iff hok, or_and_right, exists_or, exists_eq_left]
      rw [← or_assoc]
      refine or_congr ?_ Iff.rfl
      split
      · rename_i hle
        rw [Attr.mem_store]
        refine or_congr Iff.rfl ⟨?_, fun hi => hi.1.symm⟩
        rintro rfl
        exact ⟨rfl, hle⟩
      · rename_i hgt
        refine (or_iff_left ?_).symm
        rintro ⟨rfl, hle⟩
        exact hgt hle
    · rw [if_neg hok] at h
      obtain rfl := Option.some.inj h
      simp [not_visits hok]

/-- What was stored by the part that the constructors share. -/
theorem attributes_stores (memory : ℕ → UInt8) (h base guard : ℕ) :
    ∃ attr, attributes memory h base guard = some attr ∧ ∀ i, i ∈ attr.stores ↔
      ∃ x, Visits memory x (h + sizeofHeader + base) (attributesLength memory h base) ∧
        rtaType memory x = i ∧ i ≤ guard := by
  obtain ⟨attr, hattr⟩ : ∃ attr, attributes memory h base guard = some attr :=
    parse_finishes (Nat.lt_succ_self (attributesLength memory h base).toNat)
  refine ⟨attr, hattr, fun i => ?_⟩
  rw [parse_stores hattr]
  simp [Attr.cleared]

/-- The end of the two constructors stores at the two address types at most. -/
theorem Attr.fill_stores {n : ℕ} (hn : ifaLocal < n) :
    (∀ i ∈ attr.fill.stores, i < n) ↔ ∀ i ∈ attr.stores, i < n := by
  have hn' : ifaAddress < n := Nat.lt_trans (by decide) hn
  unfold Attr.fill
  dsimp only
  split_ifs <;> simp only [Attr.mem_store, or_imp, forall_and, forall_eq, hn, hn', and_true]

/-- The shared part stores inside of `n` elements if no attribute has a type from `n` up to the
guard. -/
theorem inBounds_attributes {n : ℕ} : (∃ attr, attributes memory h base guard = some attr ∧
    ∀ i ∈ attr.stores, i < n) ↔
      ∀ x, Visits memory x (h + sizeofHeader + base) (attributesLength memory h base) →
        rtaType memory x < n ∨ guard < rtaType memory x := by
  obtain ⟨attr, hattr, hstores⟩ := attributes_stores memory h base guard
  rw [hattr]
  constructor
  · rintro ⟨_, ⟨⟩, hin⟩ x hx
    by_cases hle : rtaType memory x ≤ guard
    · exact .inl (hin _ ((hstores _).mpr ⟨x, hx, rfl, hle⟩))
    · exact .inr (by omega)
  · intro hall
    refine ⟨attr, rfl, fun i hi => ?_⟩
    obtain ⟨x, hx, rfl, hle⟩ := (hstores i).mp hi
    exact (hall x hx).resolve_right (by omega)

theorem inBounds_filled {n : ℕ} (hn : ifaLocal < n) :
    (∃ attr, (attributes memory h base guard).map Attr.fill = some attr ∧
      ∀ i ∈ attr.stores, i < n) ↔
    ∃ attr, attributes memory h base guard = some attr ∧ ∀ i ∈ attr.stores, i < n := by
  obtain ⟨attr, hattr, -⟩ := attributes_stores memory h base guard
  rw [hattr, Option.map_some]
  constructor
  · rintro ⟨_, ⟨⟩, hin⟩
    exact ⟨attr, rfl, (Attr.fill_stores hn).mp hin⟩
  · rintro ⟨_, ⟨⟩, hin⟩
    exact ⟨_, rfl, (Attr.fill_stores hn).mpr hin⟩

/-- The constructors of links and routes store inside their arrays; the other two do if and only
if no attribute they come to has a type from the end of the array up to `RTA_MAX`. -/
theorem inBounds_iff : m.InBounds c memory h ↔
    m = .linkMessage ∨ m = .newRoute ∨ m = .delRoute ∨
      ∀ x, m.Reads memory h x → rtaType memory x < m.elements c ∨ c.rtaMax < rtaType memory x := by
  have hlink := c.ifaLocal_le_iflaMax
  have haddress := c.ifaLocal_le_ifaMax
  cases m with
  | linkMessage =>
    refine iff_of_true ?_ (.inl rfl)
    exact (inBounds_filled (Nat.lt_succ_of_le hlink)).mpr
      (inBounds_attributes.mpr fun x _ => Nat.lt_or_ge _ _)
  | addressMessage =>
    simp only [reduceCtorEq, false_or]
    exact (inBounds_filled (Nat.lt_succ_of_le haddress)).trans inBounds_attributes
  | newRoute =>
    exact iff_of_true (inBounds_attributes.mpr fun x _ => Nat.lt_or_ge _ _) (.inr (.inl rfl))
  | delRoute =>
    exact iff_of_true (inBounds_attributes.mpr fun x _ => Nat.lt_or_ge _ _) (by simp)
  | neighborMessage =>
    simp only [reduceCtorEq, false_or]
    exact inBounds_attributes

theorem Attribute.length_le_align (a : Attribute) : a.length ≤ rtaAlign a.length := by
  simp only [rtaAlign]
  omega

/-- The constants of one version of the headers. -/
def linux : Constants where
  iflaMax := 63
  ifaMax := 11
  rtaMax := 30
  ndaMax := 17
  ifaLocal_le_iflaMax := by decide
  ifaLocal_le_ifaMax := by decide
  ifaMax_lt_rtaMax := by decide
  ndaMax_lt_rtaMax := by decide

/-- A message of 28 bytes of type NEWADDR with one attribute, of type 20 and without payload. -/
def addressBytes : List UInt8 :=
  bytesOf 4 28 ++ bytesOf 2 20 ++ List.replicate 10 0 ++ List.replicate 8 0 ++
    bytesOf 2 4 ++ bytesOf 2 20

/-- The array of the message has 12 elements, and the constructor stores at the index 20. -/
theorem not_inBounds :
    ((addressMessage linux (fun i => addressBytes.getD i 0) 0).map Attr.stores =
      some [20, ifaLocal, ifaAddress]) ∧ Parsed.addressMessage.elements linux = 12 ∧
    ¬ Parsed.addressMessage.InBounds linux (fun i => addressBytes.getD i 0) 0 := by
  have hstores : (addressMessage linux (fun i => addressBytes.getD i 0) 0).map Attr.stores =
      some [20, ifaLocal, ifaAddress] := by decide +kernel
  refine ⟨hstores, rfl, ?_⟩
  rintro ⟨attr, hattr, hin⟩
  rw [show addressMessage linux (fun i => addressBytes.getD i 0) 0 = some attr from hattr,
    Option.map_some, Option.some.injEq] at hstores
  exact absurd (hin 20 (by simp [hstores])) (by decide)

end Redx.NetLink
