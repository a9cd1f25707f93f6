import Redx.NetLink.Receive
import Redx.NetLink.Decode
import Redx.Library.Region

/-!
# What the constructors read

The constructors for received messages copy the fixed part of a message whatever its length, and
the one for new addresses reads through an element of its array whatever it points at. The loop
over the attributes tests before it reads. The branches on `debug`, which is zero, do nothing.
-/
namespace Redx.NetLink
open Library

/-- A constructor reads bytes of the memory, or as many through a NULL element of `attr`. -/
inductive Read where
  | bytes (region : Region)
  | null (length : ℕ)
  deriving DecidableEq, Repr

/-- The loop over the attributes: `RTA_OK` reads a length that it has room for, the body the type,
`RTA_NEXT` the length again. -/
def parseReads (memory : ℕ → UInt8) : ℕ → ℕ → ℤ → Option (List Region)
  | 0, _, _ => none
  | fuel + 1, ra, length =>
    if RtaOk memory ra length then
      match parseReads memory fuel (ra + rtaAlign (rtaLen memory ra))
          (length - rtaAlign (rtaLen memory ra)) with
      | none => none
      | some reads => some (⟨ra, 2⟩ :: ⟨ra + 2, 2⟩ :: ⟨ra, 2⟩ :: reads)
    else if sizeofAttribute ≤ length then some [⟨ra, 2⟩]
    else some []

/-- `RouteMessage( hdr )`: the type, and a copy of the header. -/
def routeMessageReads (h : ℕ) : List Region := [⟨h + 4, 2⟩, ⟨h, sizeofHeader⟩]

/-- What the constructors share: the length, then the loop. -/
def attributesReads (memory : ℕ → UInt8) (h base : ℕ) : Option (List Region) :=
  let length := attributesLength memory h base
  (parseReads memory (length.toNat + 1) (h + sizeofHeader + base) length).map (⟨h, 4⟩ :: ·)

/-- `LinkMessage( hdr )` -/
def linkMessageReads (memory : ℕ → UInt8) (h : ℕ) : Option (List Region) :=
  (attributesReads memory h sizeofIfinfomsg).map
    (routeMessageReads h ++ [⟨h, sizeofHeader⟩, ⟨h + sizeofHeader, sizeofIfinfomsg⟩] ++ ·)

/-- `AddressMessage( hdr )` -/
def addressMessageReads (memory : ℕ → UInt8) (h : ℕ) : Option (List Region) :=
  (attributesReads memory h sizeofIfaddrmsg).map
    (routeMessageReads h ++ [⟨h + sizeofHeader, sizeofIfaddrmsg⟩] ++ ·)

/-- `NewRoute( hdr )` and `DelRoute( hdr )`, which keep a pointer to the fixed part. -/
def routeReads (memory : ℕ → UInt8) (h : ℕ) : Option (List Region) :=
  (attributesReads memory h sizeofRtmsg).map (routeMessageReads h ++ ·)

/-- `NeighborMessage( hdr )`, which keeps a pointer to the fixed part. -/
def neighborMessageReads (memory : ℕ → UInt8) (h : ℕ) : Option (List Region) :=
  (attributesReads memory h sizeofNdmsg).map (routeMessageReads h ++ ·)

/-- `ifa_family` -/
def ifaFamily (memory : ℕ → UInt8) (h : ℕ) : UInt8 := memory (h + sizeofHeader)

def afInet : UInt8 := 2
def afInet6 : UInt8 := 10

/-- How much `inet_ntop` reads of an address of a family. -/
def inetLength (family : UInt8) : ℕ :=
  if family = afInet then 4 else if family = afInet6 then 16 else 0

/-- What is read at `RTA_DATA( ra )`. -/
def dataRead (ra length : ℕ) : Read :=
  if ra = 0 then .null length else .bytes ⟨ra + sizeofAttribute, length⟩

/-- `inet_ntop` in `NewAddress( hdr )`; for other families it reads nothing. -/
def inetReads (family : UInt8) (ra : ℕ) : List Read :=
  if inetLength family = 0 then [] else [dataRead ra (inetLength family)]

/-- `NewAddress( hdr )` -/
def newAddressReads (c : Constants) (memory : ℕ → UInt8) (h : ℕ) : Option (List Read) :=
  (addressMessage c memory h).bind fun attr => (addressMessageReads memory h).map fun reads =>
    reads.map .bytes ++ inetReads (ifaFamily memory h) (attr.entries ifaAddress)

/-- What the object that a factory makes of a message reads. -/
def Factory.reads (c : Constants) (memory : ℕ → UInt8) (h : ℕ) : Factory → Option (List Read)
  | .newLink | .delLink => (linkMessageReads memory h).map (·.map .bytes)
  | .newAddress => newAddressReads c memory h
  | .delAddress => (addressMessageReads memory h).map (·.map .bytes)
  | .newRoute | .delRoute => (routeReads memory h).map (·.map .bytes)
  | .newNeighbor | .delNeighbor => (neighborMessageReads memory h).map (·.map .bytes)
  | .routeMessage => some [.bytes ⟨h + 4, 2⟩]
  | .getLink | .getAddress | .getRoute | .getNeighbor => some []

/-- The message at a header. -/
def extent (memory : ℕ → UInt8) (h : ℕ) : Region := ⟨h, nlmsgLen memory h⟩

/-- The read stays in the message. -/
def Read.Inside (memory : ℕ → UInt8) (h : ℕ) : Read → Prop
  | .bytes region => (extent memory h).Covers region
  | .null _ => False

/-- The construction finishes and reads bytes of the message only. -/
def Factory.ReadsInside (f : Factory) (c : Constants) (memory : ℕ → UInt8) (h : ℕ) : Prop :=
  ∃ reads, f.reads c memory h = some reads ∧ ∀ r ∈ reads, r.Inside memory h

/-- `x` is the last attribute of a type that the loop from `ra` on comes to. -/
def Last (memory : ℕ → UInt8) (t ra : ℕ) (length : ℤ) (x : ℕ) : Prop :=
  Visits memory x ra length ∧ rtaType memory x = t ∧
    ∀ y, Visits memory y ra length → rtaType memory y = t → y ≤ x

/-- The last attribute of a type in the message about an address. -/
def LastOf (memory : ℕ → UInt8) (h t x : ℕ) : Prop :=
  Last memory t (h + sizeofHeader + sizeofIfaddrmsg) (attributesLength memory h sizeofIfaddrmsg) x

/-- The attribute with the address: the last one of that type, or of the local addresses if there
is none. -/
def AddressAt (memory : ℕ → UInt8) (h x : ℕ) : Prop :=
  LastOf memory h ifaAddress x ∨
    (∀ y, ¬ LastOf memory h ifaAddress y) ∧ LastOf memory h ifaLocal x

/-- The length covers the fixed part that the constructor for the type copies, and there is an
attribute with as many bytes of the message behind its header as an address of the family has. -/
def Complete (memory : ℕ → UInt8) (h : ℕ) (type : ℕ) : Prop :=
  (type = 16 ∨ type = 17 → sizeofHeader + sizeofIfinfomsg ≤ nlmsgLen memory h) ∧
  (type = 20 ∨ type = 21 → sizeofHeader + sizeofIfaddrmsg ≤ nlmsgLen memory h) ∧
  (type = 20 → inetLength (ifaFamily memory h) ≠ 0 → ∃ x, AddressAt memory h x ∧
    x + sizeofAttribute + inetLength (ifaFamily memory h) ≤ h + nlmsgLen memory h)

variable {c : Constants} {memory : ℕ → UInt8} {guard fuel ra h base i t x y n : ℕ} {length : ℤ}
  {attr attr' : Attr} {reads : List Region}

theorem Visits.le (hv : Visits memory x ra length) : ra ≤ x := by
  induction hv with
  | here => exact le_rfl
  | later _ _ ih => exact (Nat.le_add_right ..).trans ih

theorem Last.unique (hx : Last memory t ra length x) (hy : Last memory t ra length y) : x = y :=
  Nat.le_antisymm (hy.2.2 x hx.1 hx.2.1) (hx.2.2 y hy.1 hy.2.1)

/-- The loop leaves the last attribute of a type up to the guard, or what was there before. -/
theorem parse_last (hp : parse memory guard fuel ra length attr = some attr') (hi : i ≤ guard) :
    (∃ x, Last memory i ra length x ∧ attr'.entries i = x) ∨
      (∀ x, Visits memory x ra length → rtaType memory x ≠ i) ∧
        attr'.entries i = attr.entries i := by
  induction fuel generalizing ra length attr with
  | zero => cases hp
  | succ fuel ih =>
    rw [parse] at hp
    by_cases hok : RtaOk memory ra length
    · rw [if_pos hok] at hp
      rcases ih hp with ⟨x, ⟨hv, htype, hlast⟩, hx⟩ | ⟨hnone, hentry⟩
      · refine .inl ⟨x, ⟨.later hok hv, htype, fun y hy hty => ?_⟩, hx⟩
        rcases (visits_iff hok).mp hy with rfl | hy
        · exact (Nat.le_add_right ..).trans hv.le
        · exact hlast y hy hty
      · by_cases htype : rtaType memory ra = i
        · subst htype
          refine .inl ⟨ra, ⟨.here hok, rfl, fun y hy hty => ?_⟩, ?_⟩
          · rcases (visits_iff hok).mp hy with rfl | hy
            · exact le_rfl
            · exact absurd hty (hnone y hy)
          · rw [hentry, if_pos hi]
            exact Function.update_self ..
        · refine .inr ⟨fun y hy => ?_, ?_⟩
          · rcases (visits_iff hok).mp hy with rfl | hy
            · exact htype
            · exact hnone y hy
          · rw [hentry]
            split
            · exact Function.update_of_ne (Ne.symm htype) _ _
            · rfl
    · rw [if_neg hok, Option.some.injEq] at hp
      exact .inr ⟨fun y hy => absurd hy (not_visits hok), by rw [hp]⟩

/-- Inside of the message as long as the length ends where the message does. -/
theorem parseReads_inside (hh : h ≤ ra) (hend : ra + length ≤ h + nlmsgLen memory h)
    (hfuel : length.toNat < fuel) : ∃ reads, parseReads memory fuel ra length = some reads ∧
      ∀ r ∈ reads, (extent memory h).Covers r := by
  induction fuel generalizing ra length with
  | zero => omega
  | succ fuel ih =>
    have hcovers : ∀ d, d ≤ 2 → sizeofAttribute ≤ length →
        (extent memory h).Covers ⟨ra + d, 2⟩ := fun d hd hle => by
      simp only [Region.Covers, extent, sizeofAttribute] at *
      omega
    rw [parseReads]
    by_cases hok : RtaOk memory ra length
    · have hpos := hok.align_pos
      have hle := hok.1
      simp only [sizeofAttribute] at hle
      obtain ⟨reads, hreads, hin⟩ := @ih (ra + rtaAlign (rtaLen memory ra))
        (length - rtaAlign (rtaLen memory ra)) (by omega) (by omega) (by omega)
      refine ⟨_, by rw [if_pos hok, hreads], ?_⟩
      simp only [List.mem_cons, forall_eq_or_imp]
      exact ⟨hcovers 0 (by omega) hle, hcovers 2 le_rfl hle, hcovers 0 (by omega) hle, hin⟩
    · rw [if_neg hok]
      split
      · rename_i hle
        exact ⟨_, rfl, by simpa using hcovers 0 (by omega) hle⟩
      · exact ⟨_, rfl, by simp⟩

/-- The length computed never reaches beyond the message; it is negative for a short one. -/
theorem attributesLength_le (memory : ℕ → UInt8) (h : ℕ) (hbase : base ≤ 16) :
    attributesLength memory h base ≤ (nlmsgLen memory h : ℤ) - (sizeofHeader + base : ℕ) := by
  rw [attributesLength]
  by_cases hlt : (nlmsgLen memory h : ℤ) - (sizeofHeader + base : ℕ) < 2 ^ 31
  · rw [Int.bmod_eq_of_le (by simp only [sizeofHeader]; omega) (by omega)]
  · have := Int.bmod_lt (x := (nlmsgLen memory h : ℤ) - (sizeofHeader + base : ℕ))
      (show 0 < 2 ^ 32 by decide)
    omega

theorem attributesReads_inside (hlen : sizeofHeader ≤ nlmsgLen memory h) (hbase : base ≤ 16) :
    ∃ reads, attributesReads memory h base = some reads ∧
      ∀ r ∈ reads, (extent memory h).Covers r := by
  have hle := attributesLength_le memory h hbase
  have hstart : h ≤ h + sizeofHeader + base := by omega
  have hend : ((h + sizeofHeader + base : ℕ) : ℤ) + attributesLength memory h base ≤
      h + nlmsgLen memory h := by omega
  obtain ⟨reads, hreads, hin⟩ := parseReads_inside hstart hend
    (Nat.lt_succ_self (attributesLength memory h base).toNat)
  refine ⟨_, congrArg (Option.map _) hreads, ?_⟩
  rw [List.forall_mem_cons]
  refine ⟨?_, hin⟩
  simp only [Region.Covers, extent, sizeofHeader] at *
  omega

/-- The loop stays in the message, so only the copies before it matter. -/
theorem fixed_inside {fixed : List Region} (hlen : sizeofHeader ≤ nlmsgLen memory h)
    (hbase : base ≤ 16) :
    (∃ reads, ((attributesReads memory h base).map (fixed ++ ·)).map (·.map Read.bytes) =
      some reads ∧ ∀ r ∈ reads, r.Inside memory h) ↔ ∀ r ∈ fixed, (extent memory h).Covers r := by
  obtain ⟨reads, hreads, hin⟩ := attributesReads_inside hlen hbase
  simp only [hreads, Option.map_some, Option.some.injEq, exists_eq_left', List.forall_mem_map,
    List.forall_mem_append]
  exact and_iff_left hin

theorem linkMessage_inside (hlen : sizeofHeader ≤ nlmsgLen memory h) :
    (∀ r ∈ routeMessageReads h ++ [⟨h, sizeofHeader⟩, ⟨h + sizeofHeader, sizeofIfinfomsg⟩],
      (extent memory h).Covers r) ↔ sizeofHeader + sizeofIfinfomsg ≤ nlmsgLen memory h := by
  simp only [routeMessageReads, List.cons_append, List.nil_append, List.forall_mem_cons,
    List.not_mem_nil, Region.Covers, extent, sizeofHeader, sizeofIfinfomsg] at *
  simp
  omega

theorem addressMessage_inside (hlen : sizeofHeader ≤ nlmsgLen memory h) :
    (∀ r ∈ routeMessageReads h ++ [⟨h + sizeofHeader, sizeofIfaddrmsg⟩],
      (extent memory h).Covers r) ↔ sizeofHeader + sizeofIfaddrmsg ≤ nlmsgLen memory h := by
  simp only [routeMessageReads, List.cons_append, List.nil_append, List.forall_mem_cons,
    List.not_mem_nil, Region.Covers, extent, sizeofHeader, sizeofIfaddrmsg] at *
  simp
  omega

theorem routeMessage_inside (hlen : sizeofHeader ≤ nlmsgLen memory h) :
    ∀ r ∈ routeMessageReads h, (extent memory h).Covers r := by
  simp only [routeMessageReads, List.forall_mem_cons, List.not_mem_nil, Region.Covers, extent,
    sizeofHeader] at *
  simp
  omega

/-- The element for the address points at the attribute that carries it, or is NULL. -/
theorem addressMessage_entry (c : Constants) (memory : ℕ → UInt8) (h : ℕ) :
    ∃ attr, addressMessage c memory h = some attr ∧
      (AddressAt memory h (attr.entries ifaAddress) ∨
        (∀ x, ¬ AddressAt memory h x) ∧ attr.entries ifaAddress = 0) := by
  obtain ⟨attr, hattr⟩ : ∃ attr, attributes memory h sizeofIfaddrmsg c.rtaMax = some attr :=
    parse_finishes (Nat.lt_succ_self (attributesLength memory h sizeofIfaddrmsg).toNat)
  refine ⟨attr.fill, by rw [addressMessage, hattr]; rfl, ?_⟩
  have hlocal : ifaLocal ≤ c.rtaMax := c.ifaLocal_le_ifaMax.trans c.ifaMax_lt_rtaMax.le
  have haddress : ifaAddress ≤ c.rtaMax := (show ifaAddress ≤ ifaLocal by decide).trans hlocal
  have hfill : attr.fill.entries ifaAddress =
      if attr.entries ifaAddress = 0 then attr.entries ifaLocal else attr.entries ifaAddress := by
    rw [Attr.fill_entries, if_neg (fun h => absurd h.2 (by decide))]
    simp
  rw [hfill]
  rcases parse_last hattr haddress with ⟨x, hx, hentry⟩ | ⟨hnone, hentry⟩
  · have hpos := hx.1.le
    simp only [sizeofHeader] at hpos
    rw [if_neg (by omega), hentry]
    exact .inl (.inl hx)
  · have hno : ∀ y, ¬ LastOf memory h ifaAddress y := fun y hy => hnone y hy.1 hy.2.1
    rw [if_pos (by rw [hentry]; rfl)]
    rcases parse_last hattr hlocal with ⟨x, hx, hentry'⟩ | ⟨hnone', hentry'⟩
    · rw [hentry']
      exact .inl (.inr ⟨hno, hx⟩)
    · refine .inr ⟨fun x hx => ?_, hentry'⟩
      exact hx.elim (hno x) fun hx => hnone' x hx.2.1 hx.2.2.1

theorem AddressAt.unique (hx : AddressAt memory h x) (hy : AddressAt memory h y) : x = y := by
  rcases hx with hx | ⟨hno, hx⟩ <;> rcases hy with hy | ⟨hno', hy⟩
  · exact Last.unique hx hy
  · exact absurd hx (hno' x)
  · exact absurd hy (hno y)
  · exact Last.unique hx hy

theorem AddressAt.le (hx : AddressAt memory h x) : h + sizeofHeader ≤ x := by
  have hle : h + sizeofHeader + sizeofIfaddrmsg ≤ x :=
    hx.elim (fun hx => hx.1.le) fun hx => hx.2.1.le
  omega

/-- What `inet_ntop` reads is inside if the attribute with the address has room for it there. -/
theorem inetReads_inside {attr : Attr} (family : UInt8)
    (hentry : AddressAt memory h (attr.entries ifaAddress) ∨
      (∀ x, ¬ AddressAt memory h x) ∧ attr.entries ifaAddress = 0) :
    (∀ r ∈ inetReads family (attr.entries ifaAddress), r.Inside memory h) ↔
      (inetLength family ≠ 0 → ∃ x, AddressAt memory h x ∧
        x + sizeofAttribute + inetLength family ≤ h + nlmsgLen memory h) := by
  rw [inetReads]
  by_cases hlength : inetLength family = 0
  · simp [hlength]
  · rw [if_neg hlength, List.forall_mem_singleton, dataRead]
    simp only [ne_eq, hlength, not_false_eq_true, true_imp_iff]
    rcases hentry with haddress | ⟨hnone, hzero⟩
    · have hle := haddress.le
      simp only [sizeofHeader] at hle
      rw [if_neg (by omega)]
      constructor
      · intro hin
        exact ⟨_, haddress, hin.2⟩
      · rintro ⟨x, hx, hend⟩
        obtain rfl := hx.unique haddress
        exact ⟨by simp only [extent]; omega, hend⟩
    · rw [if_pos hzero]
      simp [Read.Inside, hnone]

theorem newAddress_readsInside (c : Constants) (hlen : sizeofHeader ≤ nlmsgLen memory h) :
    Factory.newAddress.ReadsInside c memory h ↔
      sizeofHeader + sizeofIfaddrmsg ≤ nlmsgLen memory h ∧
      (inetLength (ifaFamily memory h) ≠ 0 → ∃ x, AddressAt memory h x ∧
        x + sizeofAttribute + inetLength (ifaFamily memory h) ≤ h + nlmsgLen memory h) := by
  obtain ⟨attr, hattr, hentry⟩ := addressMessage_entry c memory h
  have hfixed : (∃ reads, (addressMessageReads memory h).map (·.map Read.bytes) = some reads ∧
      ∀ r ∈ reads, r.Inside memory h) ↔ sizeofHeader + sizeofIfaddrmsg ≤ nlmsgLen memory h :=
    (fixed_inside hlen (by decide)).trans (addressMessage_inside hlen)
  obtain ⟨reads, hreads⟩ : ∃ reads, addressMessageReads memory h = some reads := by
    obtain ⟨reads, hreads, -⟩ := attributesReads_inside hlen (by decide : sizeofIfaddrmsg ≤ 16)
    exact ⟨_, congrArg (Option.map _) hreads⟩
  have hall : newAddressReads c memory h = some (reads.map .bytes ++
      inetReads (ifaFamily memory h) (attr.entries ifaAddress)) := by
    rw [newAddressReads, hattr, hreads]
    rfl
  change (∃ reads, newAddressReads c memory h = some reads ∧ ∀ r ∈ reads, r.Inside memory h) ↔ _
  rw [← inetReads_inside _ hentry, ← hfixed, hall, hreads]
  simp only [Option.map_some, Option.some.injEq, exists_eq_left', List.forall_mem_append]

/-- Constructing the object for a message in order reads bytes of the message only, if and only
if the message is complete for its type. -/
theorem reads_inside_iff (c : Constants) (hok : NlmsgOk memory h n)
    (htype : nlmsgType memory h ∈ [16, 17, 20, 21, 24, 25, 28, 29]) :
    (registered (nlmsgType memory h)).ReadsInside c memory h ↔
      Complete memory h (nlmsgType memory h) := by
  have hlen := hok.2.1
  have hlink : Factory.newLink.ReadsInside c memory h ↔ _ :=
    (fixed_inside hlen (by decide)).trans (linkMessage_inside hlen)
  have haddress : Factory.delAddress.ReadsInside c memory h ↔ _ :=
    (fixed_inside hlen (by decide)).trans (addressMessage_inside hlen)
  have hroute : Factory.newRoute.ReadsInside c memory h :=
    (fixed_inside hlen (by decide)).mpr (routeMessage_inside hlen)
  have hneighbor : Factory.newNeighbor.ReadsInside c memory h :=
    (fixed_inside hlen (by decide)).mpr (routeMessage_inside hlen)
  simp only [List.mem_cons, List.not_mem_nil, or_false] at htype
  rcases htype with ht | ht | ht | ht | ht | ht | ht | ht <;> rw [ht]
  · exact hlink.trans (by simp [Complete])
  · exact hlink.trans (by simp [Complete])
  · exact (newAddress_readsInside c hlen).trans (by simp [Complete])
  · exact haddress.trans (by simp [Complete])
  · exact iff_of_true hroute (by simp [Complete])
  · exact iff_of_true hroute (by simp [Complete])
  · exact iff_of_true hneighbor (by simp [Complete])
  · exact iff_of_true hneighbor (by simp [Complete])

theorem reads_inside_iff_link :
    (registered (nlmsgType (fun i => broadcastLink.getD i 0) 0)).ReadsInside linux
        (fun i => broadcastLink.getD i 0) 0 ↔
      Complete (fun i => broadcastLink.getD i 0) 0
        (nlmsgType (fun i => broadcastLink.getD i 0) 0) :=
  reads_inside_iff (n := 42) linux (by decide) (by decide)

/-- A message about a new address of the family of IPv4, without attributes. -/
def bareAddress : List UInt8 :=
  bytesOf 4 24 ++ bytesOf 2 20 ++ List.replicate 10 0 ++ afInet :: List.replicate 7 0

/-- The constructor reads four bytes through a NULL element. -/
theorem bareAddress_reads_null :
    NlmsgOk (fun i => bareAddress.getD i 0) 0 24 ∧
    ¬ (registered (nlmsgType (fun i => bareAddress.getD i 0) 0)).ReadsInside linux
      (fun i => bareAddress.getD i 0) 0 := by
  have hreads : (((registered (nlmsgType (fun i => bareAddress.getD i 0) 0)).reads linux
      (fun i => bareAddress.getD i 0) 0).map fun reads => decide (Read.null 4 ∈ reads)) =
        some true := by
    decide +kernel
  refine ⟨by decide, ?_⟩
  rintro ⟨reads, hsome, hin⟩
  rw [hsome, Option.map_some, Option.some.injEq, decide_eq_true_iff] at hreads
  exact hin _ hreads

end Redx.NetLink
