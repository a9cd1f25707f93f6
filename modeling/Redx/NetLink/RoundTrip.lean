import Redx.NetLink.Request
import Mathlib.Data.List.Induction

/-!
# Requests read back

The bytes of a request, read as a received message, give the fields that were set last and, for
each type, the attribute that was appended last.
-/
namespace Redx.NetLink.Request
open Library

namespace Op

def familySet : Op → Option UInt8
  | .family fam => some fam
  | _ => none

def prefixlenSet : Op → Option UInt8
  | .prefixlen bits => some bits
  | _ => none

def scopeSet : Op → Option UInt8
  | .scope id => some id
  | _ => none

def indexSet : Op → Option UInt32
  | .index intf => some intf
  | _ => none

end Op

/-- The last value that an operation gives. -/
def last {α : Type} (f : Op → Option α) (ops : List Op) : Option α := (ops.filterMap f).getLast?

/-- The attributes appended, in order. -/
def attributes (ops : List Op) : List Attribute := ops.filterMap Op.appended

def ifaPrefixlen (memory : ℕ → UInt8) (h : ℕ) : UInt8 := memory (h + 17)
def ifaScope (memory : ℕ → UInt8) (h : ℕ) : UInt8 := memory (h + 19)
def ifaIndex (memory : ℕ → UInt8) (h : ℕ) : ℕ := valueAt memory (h + 20) 4

/-- `AddressMessage::in6_addr` -/
def in6Addr (memory : ℕ → UInt8) (h : ℕ) (attr : Attr) : Option ℕ :=
  if ifaFamily memory h ≠ afInet6 then none
  else if attr.entries ifaAddress = 0 then none
  else some (attr.entries ifaAddress + sizeofAttribute)

/-- The attribute that a pointer leads to. -/
structure PointsAt (memory : ℕ → UInt8) (ra : ℕ) (a : Attribute) : Prop where
  ne : ra ≠ 0
  length : rtaLen memory ra = a.length
  payload : load memory (ra + sizeofAttribute) a.payload.length = a.payload

/-- The message at a header is decoded, nothing is left over, and the result is what the
operations put into the request. -/
structure Decodes (c : Constants) (memory : ℕ → UInt8) (h : ℕ) (ops : List Op) (attr : Attr) :
    Prop where
  message : NetLink.addressMessage c memory h = some attr
  remnant : ∃ rest, NetLink.remnant memory
    ((attributesLength memory h sizeofIfaddrmsg).toNat + 1) (h + sizeofHeader + sizeofIfaddrmsg)
    (attributesLength memory h sizeofIfaddrmsg) = some rest ∧ rest ≤ 0
  entry : ∀ t a, lastOf (attributes ops) t = some a → PointsAt memory (attr.entries t) a
  family : ∀ fam, last Op.familySet ops = some fam → ifaFamily memory h = fam
  prefixlen : ∀ bits, last Op.prefixlenSet ops = some bits → ifaPrefixlen memory h = bits
  scope : ∀ id, last Op.scopeSet ops = some id → ifaScope memory h = id
  index : ∀ intf, last Op.indexSet ops = some intf → ifaIndex memory h = intf.toNat

variable {c : Constants} {memory request : ℕ → UInt8} {h type length x lo hi : ℕ} {op : Op}
  {ops : List Op} {attr : Attr}

theorem last_append {α : Type} (f : Op → Option α) (ops : List Op) (op : Op) :
    last f (ops ++ [op]) = match f op with
      | none => last f ops
      | some v => some v := by
  rw [last, List.filterMap_append]
  cases hf : f op with
  | none => simp [hf, last]
  | some v => simp [hf]

theorem room_append (ops : List Op) (op : Op) : room (ops ++ [op]) = room ops + op.room := by
  simp [room]

theorem build_append (request : ℕ → UInt8) (type : ℕ) (ops : List Op) (op : Op) :
    build request type (ops ++ [op]) = op.run (build request type ops) := by
  simp [build]

/-- An operation changes nothing where it does not write. -/
theorem run_frame (hr : Ready request length) (hx : ¬ op.Writes length x) :
    op.run request x = request x := by
  cases op with
  | append a =>
    simp only [Op.Writes, Attribute.length, sizeofAttribute, not_or, not_and] at hx
    rw [Op.run, append_eq hr]
    simp only [sizeofAttribute]
    rw [store_outside (by rw [length_bytesOf]; omega), store_outside (by omega),
      store_outside (by rw [length_bytesOf]; omega), store_outside (by rw [length_bytesOf]; omega)]
  | family _ | prefixlen _ | flags _ | scope _ | index _ =>
    simp only [Op.Writes, not_and] at hx
    refine store_outside ?_
    simp only [List.length_singleton, length_bytesOf]
    omega

/-- A field has the value that it was set to last. -/
theorem of_last {α : Type} {f : Op → Option α} {P : (ℕ → UInt8) → α → Prop} {v : α}
    (hset : ∀ request op v, f op = some v → P (op.run request) v)
    (hkeep : ∀ request length op v, Ready request length → f op = none → P request v →
      P (op.run request) v)
    (hfits : room ops ≤ sizeofBuffer) (hl : last f ops = some v) :
    P (build request type ops) v := by
  induction ops using List.reverseRecOn with
  | nil => cases hl
  | append_singleton ops op ih =>
    rw [room_append] at hfits
    rw [last_append] at hl
    rw [build_append]
    cases hf : f op with
    | some w =>
      obtain rfl : w = v := by simpa [hf] using hl
      exact hset _ op w hf
    | none =>
      rw [hf] at hl
      exact hkeep _ _ op v (ready_build request type (by omega)) hf (ih (by omega) hl)

/-- A field of one byte. -/
theorem byte_of_last {f : Op → Option UInt8} {v : UInt8}
    (hset : ∀ request op v, f op = some v → op.run request = store request x [v])
    (hkeep : ∀ length op, 24 ≤ length → f op = none → ¬ op.Writes length x)
    (hfits : room ops ≤ sizeofBuffer) (hl : last f ops = some v) :
    build request type ops x = v := by
  refine of_last (P := fun request v => request x = v) (fun request op v hf => ?_)
    (fun request length op v hr hf hv => ?_) hfits hl
  · rw [hset request op v hf, store_byte]
  · rw [run_frame hr (hkeep length op hr.fixed hf), hv]

theorem family_of_last {fam : UInt8} (hfits : room ops ≤ sizeofBuffer)
    (hl : last Op.familySet ops = some fam) : build request type ops 16 = fam := by
  refine byte_of_last (fun request op v hf => ?_) (fun length op hlen hf => ?_) hfits hl
  · cases op <;> simp_all [Op.familySet, Op.run]
  · cases op <;> simp_all [Op.familySet, Op.Writes]
    omega

theorem prefixlen_of_last {bits : UInt8} (hfits : room ops ≤ sizeofBuffer)
    (hl : last Op.prefixlenSet ops = some bits) : build request type ops 17 = bits := by
  refine byte_of_last (fun request op v hf => ?_) (fun length op hlen hf => ?_) hfits hl
  · cases op <;> simp_all [Op.prefixlenSet, Op.run]
  · cases op <;> simp_all [Op.prefixlenSet, Op.Writes]
    omega

theorem scope_of_last {id : UInt8} (hfits : room ops ≤ sizeofBuffer)
    (hl : last Op.scopeSet ops = some id) : build request type ops 19 = id := by
  refine byte_of_last (fun request op v hf => ?_) (fun length op hlen hf => ?_) hfits hl
  · cases op <;> simp_all [Op.scopeSet, Op.run]
  · cases op <;> simp_all [Op.scopeSet, Op.Writes]
    omega

theorem index_of_last {intf : UInt32} (hfits : room ops ≤ sizeofBuffer)
    (hl : last Op.indexSet ops = some intf) :
    valueAt (build request type ops) 20 4 = intf.toNat := by
  refine of_last (P := fun request (v : UInt32) => valueAt request 20 4 = v.toNat)
    (fun request op v hf => ?_) (fun request length op v hr hf hv => ?_) hfits hl
  · cases op with
    | index intf =>
      obtain rfl : intf = v := Option.some.inj hf
      exact valueAt_store.trans (Nat.mod_eq_of_lt intf.toNat_lt)
    | _ => cases hf
  · rw [← hv, valueAt_inj]
    refine fun i hi => run_frame hr ?_
    have hlen : 24 ≤ length := hr.fixed
    cases op <;> simp_all [Op.indexSet, Op.Writes] <;> omega

theorem sizeOf_attributes (ops : List Op) : sizeOf (attributes ops) = room ops := by
  induction ops with
  | nil => rfl
  | cons op ops ih =>
    have hroom : room (op :: ops) = op.room + room ops := rfl
    rw [hroom, ← ih]
    cases op with
    | append a => rfl
    | family _ | prefixlen _ | flags _ | scope _ | index _ => exact (Nat.zero_add _).symm

/-- What an append leaves at the end of the request. -/
theorem holds_append_unpadded (hr : Ready request length) (a : Attribute) :
    Holds (append request a.type a.payload) length a.unpadded := by
  have hlen : 24 ≤ length := hr.fixed
  rw [append_eq hr, Attribute.unpadded, Library.holds_append, Library.holds_append]
  simp only [length_bytesOf, sizeofAttribute, List.length_append]
  refine ⟨⟨?_, ?_⟩, ?_⟩
  · rw [holds_store_of_apart (.inr (by rw [length_bytesOf]; omega)),
      holds_store_of_apart (.inl (by rw [length_bytesOf]; omega))]
    exact holds_store
  · rw [holds_store_of_apart (.inr (by rw [length_bytesOf]; omega)),
      holds_store_of_apart (.inl (by rw [length_bytesOf])),
      holds_store_of_apart (.inr (by rw [length_bytesOf]))]
    exact holds_store
  · rw [holds_store_of_apart (.inr (by rw [length_bytesOf]; omega))]
    exact holds_store

/-- Behind the fixed part the request holds the attributes appended. -/
theorem laid_build (hfits : room ops ≤ sizeofBuffer) :
    Laid (build request type ops) (sizeofHeader + sizeofIfaddrmsg) (room ops)
      (attributes ops) := by
  induction ops using List.reverseRecOn with
  | nil => exact .nil le_rfl
  | append_singleton ops op ih =>
    rw [room_append] at hfits
    have hr := ready_build request type (by omega : room ops ≤ sizeofBuffer)
    have hsame : Laid (op.run (build request type ops)) (sizeofHeader + sizeofIfaddrmsg) (room ops)
        (attributes ops) := by
      refine (ih (by omega)).congr fun i hi => run_frame hr ?_
      rw [sizeOf_attributes] at hi
      cases op <;> simp only [Op.Writes, sizeofHeader, sizeofIfaddrmsg] <;> omega
    rw [build_append, room_append, attributes, List.filterMap_append]
    cases op with
    | append a =>
      rw [← sizeOf_attributes] at hsame hr ⊢
      refine hsame.append (Int.natCast_nonneg _) (.cons (holds_append_unpadded hr a) ?_ (.nil ?_))
      · exact Int.ofNat_le.mpr a.length_le_align
      · simp [Op.room]
    | family _ | prefixlen _ | flags _ | scope _ | index _ =>
      exact (List.append_nil (attributes ops)).symm ▸ hsame

theorem length_le_sizeOf (as : List Attribute) : as.length ≤ sizeOf as := by
  induction as with
  | nil => exact le_rfl
  | cons a as ih =>
    have hsize : sizeOf (a :: as) = rtaAlign a.length + sizeOf as := rfl
    have hpos : sizeofAttribute ≤ a.length := Nat.le_add_right ..
    have hle := a.length_le_align
    simp only [sizeofAttribute, List.length_cons] at *
    omega

/-- An element that a lookup finds points at an attribute with the length and the payload. -/
theorem pointsAt_of_holds {ra : ℕ} {a : Attribute} (hpos : 0 < ra)
    (hm : Holds memory ra a.unpadded) :
    PointsAt memory ra a := by
  have hl : Laid memory ra a.length [a] := .cons hm le_rfl (.nil (by
    have := a.length_le_align
    omega))
  obtain ⟨-, hlen, -, -⟩ := rta_of_laid hl
  refine ⟨hpos.ne', hlen, ?_⟩
  rw [Attribute.unpadded, Library.holds_append] at hm
  rw [load_eq_iff_holds]
  simpa [sizeofAttribute] using hm.2

theorem mem_of_lastOf {as : List Attribute} {t : ℕ} {a : Attribute} (ha : lastOf as t = some a) :
    a ∈ as ∧ a.type = t := by
  induction as with
  | nil => cases ha
  | cons b as ih =>
    rw [lastOf] at ha
    cases hlast : lastOf as t with
    | some a' =>
      obtain rfl : a' = a := by simpa [hlast] using ha
      exact ⟨List.mem_cons_of_mem _ (ih hlast).1, (ih hlast).2⟩
    | none =>
      by_cases ht : b.type = t
      · obtain rfl : b = a := by simpa [hlast, ht] using ha
        exact ⟨List.mem_cons_self, ht⟩
      · simp [hlast, ht] at ha

/-- The lines behind the loop leave an element that is not NULL. -/
theorem fill_of_ne {t : ℕ} (hne : attr.entries t ≠ 0) : attr.fill.entries t = attr.entries t := by
  rw [Attr.fill_entries]
  split_ifs with hlocal haddress
  · exact absurd (hlocal.2 ▸ hlocal.1) hne
  · exact absurd (haddress.2 ▸ haddress.1) hne
  · rfl

/-- A request is decoded to what was put into it. -/
theorem decodes_build (hmax : ∀ a ∈ attributes ops, a.type ≤ c.ifaMax)
    (hfits : room ops ≤ sizeofBuffer) (hm : Holds memory h (send (build request type ops))) :
    ∃ attr, Decodes c memory h ops attr := by
  have hr := ready_build request type hfits
  -- what is read at the header is what was written
  have hsame : ∀ i < sizeofHeader + sizeofIfaddrmsg + room ops,
      memory (h + i) = build request type ops i := by
    rw [send, hr.len, ← load_eq_iff_holds, length_load, load_eq_load] at hm
    intro i hi
    rw [hm i hi, Nat.zero_add]
  have hword : ∀ d, d + 4 ≤ 24 →
      valueAt memory (h + d) 4 = valueAt (build request type ops) d 4 := fun d hd => by
    rw [valueAt_inj]
    intro i hi
    rw [Nat.add_assoc]
    exact hsame _ (by simp only [sizeofHeader, sizeofIfaddrmsg]; omega)
  have hbyte : ∀ d, d < 24 → memory (h + d) = build request type ops d := fun d hd =>
    hsame d (by simp only [sizeofHeader, sizeofIfaddrmsg]; omega)
  have hlen : nlmsgLen memory h = sizeofHeader + sizeofIfaddrmsg + room ops :=
    (hword 0 (by decide)).trans hr.len
  have hlt : room ops < 2 ^ 31 := Nat.lt_of_le_of_lt hfits (by decide)
  have hl : Laid memory (h + sizeofHeader + sizeofIfaddrmsg) (room ops) (attributes ops) := by
    have hbuild : Laid (build request type ops) _ (room ops) _ := laid_build hfits
    refine hbuild.congr fun i hi => ?_
    rw [sizeOf_attributes] at hi
    rw [Nat.add_assoc h, Nat.add_assoc h]
    exact hsame _ (by omega)
  obtain ⟨attr, hattr, hentries⟩ := attributes_of_laid c.rtaMax hl hlen hlt
  refine ⟨attr.fill, by rw [NetLink.addressMessage, hattr]; rfl, ?_, fun t a ha => ?_,
    fun fam hl => ?_, fun bits hl => ?_, fun id hl => ?_, fun intf hl => ?_⟩
  · rw [attributesLength_eq hlen hlt]
    refine remnant_of_laid hl ?_
    have := length_le_sizeOf (attributes ops)
    rw [sizeOf_attributes] at this
    simp only [Int.toNat_natCast]
    omega
  · obtain ⟨hmem, htype⟩ := mem_of_lastOf ha
    obtain ⟨x, hx, hholds⟩ := lastAt_of_lastOf hl ha
    have hle := hmax a hmem
    have hrta := c.ifaMax_lt_rtaMax
    have hentry : attr.entries t = x := by
      rw [hentries t (by omega), hx, Option.getD_some]
    have hpos : 0 < x := by
      have := le_of_lastAt hx
      simp only [sizeofHeader] at this
      omega
    rw [fill_of_ne (by omega), hentry]
    exact pointsAt_of_holds hpos hholds
  · exact (hbyte 16 (by decide)).trans (family_of_last hfits hl)
  · exact (hbyte 17 (by decide)).trans (prefixlen_of_last hfits hl)
  · exact (hbyte 19 (by decide)).trans (scope_of_last hfits hl)
  · exact (hword 20 (by decide)).trans (index_of_last hfits hl)

/-- Requests for addresses come back as they were put together; one for a new IPv6 address gives
its interface and its address. -/
theorem request_round_trip (c : Constants) :
    (∀ request type ops memory h, (∀ a ∈ attributes ops, 1 ≤ a.type ∧ a.type ≤ c.ifaMax) →
      room ops ≤ sizeofBuffer → Holds memory h (send (build request type ops)) →
        ∃ attr, Decodes c memory h ops attr) ∧
    ∀ request index address memory h,
      Holds memory h (send (build request rtmNewaddr (newAddress index (.v6 address) none))) →
        ∃ attr p, NetLink.addressMessage c memory h = some attr ∧
          ifaIndex memory h = index.toNat ∧ in6Addr memory h attr = some p ∧
          load memory p 16 = address.toList := by
  refine ⟨fun request type ops memory h htypes hfits hm =>
    decodes_build (fun a ha => (htypes a ha).2) hfits hm,
    fun request index address memory h hm => ?_⟩
  have hlocal := c.ifaLocal_le_ifaMax
  have hattributes : attributes (newAddress index (.v6 address) none) =
      [Address.localAttribute (.v6 address), Address.addressAttribute (.v6 address)] := rfl
  have hmax : ∀ a ∈ attributes (newAddress index (.v6 address) none), a.type ≤ c.ifaMax := by
    rw [hattributes, List.forall_mem_cons, List.forall_mem_singleton]
    exact ⟨hlocal, (show ifaAddress ≤ ifaLocal by decide).trans hlocal⟩
  obtain ⟨attr, hd⟩ := decodes_build hmax (room_newAddress_le _ _ _) hm
  obtain ⟨hne, -, hpayload⟩ := hd.entry ifaAddress (Address.addressAttribute (.v6 address)) rfl
  have hfamily : ifaFamily memory h = afInet6 := hd.family afInet6 rfl
  refine ⟨attr, attr.entries ifaAddress + sizeofAttribute, hd.message, hd.index index rfl, ?_, ?_⟩
  · rw [in6Addr, if_neg (not_not.mpr hfamily), if_neg hne]
  · have hlen : (Address.addressAttribute (.v6 address)).payload.length = 16 :=
      address.toList_length
    rwa [hlen] at hpayload

/-- The address 127.0.0.1. -/
def loopback4 : Address := .v4 ⟨[127, 0, 0, 1], rfl⟩

/-- A request for a new address of interface 3, from a cleared buffer, in the memory at 0. -/
def requested (address : Address) (bits : Option UInt8) (i : ℕ) : UInt8 :=
  (send (build (fun _ => 0) rtmNewaddr (newAddress 3 address bits))).getD i 0

theorem request_round_trip_loopback :
    (∃ attr, Decodes linux (requested loopback4 (some 8)) 0 (newAddress 3 loopback4 (some 8))
      attr) ∧
    ∃ attr p, NetLink.addressMessage linux (requested loopback none) 0 = some attr ∧
      ifaIndex (requested loopback none) 0 = 3 ∧ in6Addr (requested loopback none) 0 attr = some p ∧
      load (requested loopback none) p 16 = loopback.bytes := by
  obtain ⟨hdecodes, haddress⟩ := request_round_trip linux
  refine ⟨hdecodes _ rtmNewaddr _ _ 0 ?_ (by decide) (holds_getD _),
    haddress (fun _ => 0) 3 ⟨List.replicate 15 0 ++ [1], rfl⟩ _ 0 (holds_getD _)⟩
  decide

end Redx.NetLink.Request
