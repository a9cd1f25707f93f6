import Redx.Library.Decimal
import Redx.Library.Memory
import Redx.Monitor.Slots

/-!
# Ordinals of interfaces

The ordinal of an interface is scanned in the constructor, from where a pointer leads that it has
not assigned, and by another pattern when the interface is renamed. A peer keeps eight bits of it,
from which a name is made again.
-/
namespace Redx.Monitor
open Library

/-- `sync_pci` -/
def syncPci : List UInt8 := [115, 121, 110, 99, 95, 112, 99, 105]

/-- `priv` -/
def priv : List UInt8 := [112, 114, 105, 118]

/-- `ibiz` -/
def ibiz : List UInt8 := [105, 98, 105, 122]

/-- The part of an `Interface` that has its name and its ordinal. -/
structure NamedInterface where
  name : List UInt8
  ordinal : Int32
  noOrdinal : Bool

namespace NamedInterface

/-- `sscanf(_name, "sync_pci%dp%d", &slot, &port)` when it assigns both. -/
def scanSlotPort (name : List UInt8) : Option (Int32 × Int32) := do
  let rest ← scanLiteral syncPci name
  let (slot, rest) ← scanInt rest
  let rest ← scanLiteral [112] rest
  let (port, _) ← scanInt rest
  return (Int32.ofInt slot, Int32.ofInt port)

/-- The slot and the port are those of a card. -/
def InRange (slot port : Int32) : Prop := slot ≥ 0 ∧ slot ≤ 15 ∧ port ≥ 0 ∧ port ≤ 3

instance (slot port : Int32) : Decidable (InRange slot port) := inferInstanceAs (Decidable (_ ∧ _))

/-- `Interface( Tcl_Interp * )`, up to the ordinal. The assignment of the member `_name` is not
compiled, so that it scans what the pointer that is in memory there leads to; the member `_ordinal`
may stay as it is, too. There is no result where the string is not mapped. -/
def construct (memory : Memory) (name : ℕ) (ordinal : Int32) : Option NamedInterface := do
  let name ← memory.string name
  match scanSlotPort name with
  | some (slot, port) =>
    if InRange slot port then
      return ⟨name, (0x40 : Int32) ||| ((slot &&& 0xf) <<< 2) ||| port, false⟩
    else return ⟨name, ordinal, true⟩
  | none => return ⟨name, ordinal, true⟩

def isLower (c : UInt8) : Bool := 97 ≤ c && c ≤ 122

/-- `sscanf(_name, "%*[a-z]%d", &_ordinal)` when it assigns the ordinal. -/
def scanOrdinal (name : List UInt8) : Option Int32 :=
  if name.takeWhile isLower = [] then none
  else (scanInt (name.dropWhile isLower)).map fun r => Int32.ofInt r.1

/-- `rename`, and whether the system has accepted the name. -/
def rename (interface : NamedInterface) (accepted : Bool) (newName : List UInt8) :
    Bool × NamedInterface :=
  if accepted then
    (true, { interface with name := newName, ordinal := (scanOrdinal newName).getD 0 })
  else (false, interface)

end NamedInterface

/-- `snprintf` with the text of its format. -/
def snprintf (size : ℕ) (text : List UInt8) : List UInt8 :=
  if size = 0 then [] else text.take (size - 1) ++ [0]

/-- The bytes that `construct_remote_interface_name` writes to the buffer. -/
def constructRemoteInterfaceName (neighbor : PeerSlot) (size : ℕ) : List UInt8 :=
  match neighbor.name with
  | some name => (name ++ List.replicate (size - name.length) 0).take size
  | none =>
    let ordinal := neighbor.ordinal
    if neighbor.isPrivate then
      if ordinal &&& 0x40 ≠ 0 then
        let slot := (ordinal &&& 0x3c) >>> 2
        let port := ordinal &&& 0x03
        snprintf size (syncPci ++ decimal slot.toNat ++ [112] ++ decimal port.toNat)
      else snprintf size (priv ++ decimal ordinal.toNat)
    else snprintf size (ibiz ++ decimal ordinal.toNat)

/-- `sizeof remote_interface_name` -/
def remoteNameSize : ℕ := 32

/-- The names that have ordinals; the numbers of the last two are any `int`s from zero on. -/
inductive OrdinalName where
  | syncPci (slot : Fin 16) (port : Fin 4)
  | priv (k : Fin (2 ^ 31))
  | ibiz (k : Fin (2 ^ 31))

namespace OrdinalName

def text : OrdinalName → List UInt8
  | syncPci slot port => Monitor.syncPci ++ decimal slot ++ [112] ++ decimal port
  | priv k => Monitor.priv ++ decimal k
  | ibiz k => Monitor.ibiz ++ decimal k

def isPrivate : OrdinalName → Bool
  | syncPci _ _ => true
  | priv _ => true
  | ibiz _ => false

/-- An unnamed peer that is given the ordinal with `set_interface` is given the name. -/
def RoundTrips (name : OrdinalName) (ordinal : Int32) : Prop :=
  ∀ slot : PeerSlot, slot.name = none → constructRemoteInterfaceName
    (slot.setInterface name.isPrivate ordinal.toUInt32.toUInt8) remoteNameSize = name.text ++ [0]

/-- The name comes back when the constructor has made the ordinal. -/
def RoundTripsByConstructor (name : OrdinalName) (memory : Memory) (pointer : ℕ)
    (ordinal : Int32) : Prop :=
  ∃ interface, NamedInterface.construct memory pointer ordinal = some interface ∧
    name.RoundTrips interface.ordinal

/-- A slot and a port tell the name: its own, or those in the byte that `ibiz` shows. -/
def Tells (slot port : Int32) : OrdinalName → Prop
  | syncPci slot' port' => slot.toInt = (slot' : ℕ) ∧ port.toInt = (port' : ℕ)
  | priv _ => False
  | ibiz k => ((k : ℕ) : ℤ) = 64 + 4 * slot.toInt + port.toInt

/-- What eight bits tell the name. -/
def Fits (ordinal : UInt8) : OrdinalName → Prop
  | syncPci slot port => ordinal &&& 0x40 ≠ 0 ∧ ((ordinal &&& 0x3c) >>> 2).toNat = slot ∧
      (ordinal &&& 0x03).toNat = port
  | priv k => ordinal &&& 0x40 = 0 ∧ ordinal.toNat = k
  | ibiz k => ordinal.toNat = k

/-- The text that is made for an unnamed peer. -/
def remoteText (isPrivate : Bool) (ordinal : UInt8) : List UInt8 :=
  if isPrivate then
    if ordinal &&& 0x40 ≠ 0 then Monitor.syncPci ++ decimal ((ordinal &&& 0x3c) >>> 2).toNat ++
      [112] ++ decimal (ordinal &&& 0x03).toNat
    else Monitor.priv ++ decimal ordinal.toNat
  else Monitor.ibiz ++ decimal ordinal.toNat

theorem remoteText_of_tag {ordinal : UInt8} (h : ordinal &&& 0x40 ≠ 0) : remoteText true ordinal =
    Monitor.syncPci ++ decimal ((ordinal &&& 0x3c) >>> 2).toNat ++ [112] ++
      decimal (ordinal &&& 0x03).toNat := by
  rw [remoteText, if_pos rfl, if_pos h]

theorem remoteText_of_no_tag {ordinal : UInt8} (h : ordinal &&& 0x40 = 0) :
    remoteText true ordinal = Monitor.priv ++ decimal ordinal.toNat := by
  rw [remoteText, if_pos rfl, if_neg (not_not.mpr h)]

theorem remoteText_false (ordinal : UInt8) :
    remoteText false ordinal = Monitor.ibiz ++ decimal ordinal.toNat := rfl

theorem length_byte_le (x : UInt8) : (decimal x.toNat).length ≤ 3 :=
  length_decimal_le (by have := x.toNat_lt; omega)

/-- The text fits the caller's buffer. -/
theorem length_remoteText (isPrivate : Bool) (ordinal : UInt8) :
    (remoteText isPrivate ordinal).length < remoteNameSize := by
  have h1 := length_byte_le ((ordinal &&& 0x3c) >>> 2)
  have h2 := length_byte_le (ordinal &&& 0x03)
  have h3 := length_byte_le ordinal
  rw [remoteText, remoteNameSize]
  split_ifs
  all_goals
    simp only [Monitor.syncPci, Monitor.priv, Monitor.ibiz, List.length_append, List.length_cons,
      List.length_nil]
    omega

theorem snprintf_of_length_lt {size : ℕ} {text : List UInt8} (h : text.length < size) :
    snprintf size text = text ++ [0] := by
  rw [snprintf, if_neg (by omega), List.take_of_length_le (by omega)]

theorem construct_unnamed {slot : PeerSlot} (h : slot.name = none) (setPrivate : Bool)
    (ordinal : UInt8) (size : ℕ) :
    constructRemoteInterfaceName (slot.setInterface setPrivate ordinal) size =
      snprintf size (remoteText setPrivate ordinal) := by
  have hname : (slot.setInterface setPrivate ordinal).name = none := h
  rw [constructRemoteInterfaceName, hname]
  cases setPrivate with
  | false => rfl
  | true =>
    by_cases htag : ordinal &&& 0x40 = 0
    · rw [remoteText_of_no_tag htag]
      exact if_neg (not_not.mpr htag)
    · rw [remoteText_of_tag htag]
      exact if_pos htag

theorem roundTrips_iff_text {name : OrdinalName} {ordinal : Int32} : name.RoundTrips ordinal ↔
    remoteText name.isPrivate ordinal.toUInt32.toUInt8 = name.text := by
  have hwrite : ∀ slot : PeerSlot, slot.name = none → constructRemoteInterfaceName
      (slot.setInterface name.isPrivate ordinal.toUInt32.toUInt8) remoteNameSize =
        remoteText name.isPrivate ordinal.toUInt32.toUInt8 ++ [0] := by
    intro slot hslot
    rw [construct_unnamed hslot, snprintf_of_length_lt (length_remoteText _ _)]
  constructor
  · intro h
    have hzero := h PeerSlot.zero rfl
    rw [hwrite _ rfl] at hzero
    exact List.append_cancel_right hzero
  · intro h slot hslot
    rw [hwrite slot hslot, h]

theorem slotPort_inj {s p s' p' : ℕ} : Monitor.syncPci ++ decimal s ++ [112] ++ decimal p =
    Monitor.syncPci ++ decimal s' ++ [112] ++ decimal p' ↔ s = s' ∧ p = p' := by
  refine ⟨fun h => ?_, by rintro ⟨rfl, rfl⟩; rfl⟩
  simp only [List.append_assoc, List.append_cancel_left_eq] at h
  have hscan : ∀ s p : ℕ, scanInt (decimal s ++ ([112] ++ decimal p)) =
      some ((s : ℤ), [112] ++ decimal p) :=
    fun s p => scanInt_decimal (by simp; rfl)
  have heq := (hscan s p).symm.trans (h ▸ hscan s' p')
  obtain ⟨hs, hp⟩ := Prod.mk.inj (Option.some.inj heq)
  exact ⟨Int.natCast_inj.mp hs, decimal_inj.mp (List.append_cancel_left hp)⟩

/-- The name comes back exactly when the eight bits tell it. -/
theorem roundTrips_iff (name : OrdinalName) (ordinal : Int32) :
    name.RoundTrips ordinal ↔ name.Fits ordinal.toUInt32.toUInt8 := by
  rw [roundTrips_iff_text]
  generalize ordinal.toUInt32.toUInt8 = u
  cases name with
  | syncPci slot port =>
    change remoteText true u = Monitor.syncPci ++ _ ++ _ ++ _ ↔ _ ∧ _ ∧ _
    by_cases h : u &&& 0x40 = 0
    · rw [remoteText_of_no_tag h]
      exact iff_of_false (by simp [Monitor.syncPci, Monitor.priv]) fun hfit => hfit.1 h
    · rw [remoteText_of_tag h, slotPort_inj]
      exact (and_iff_right h).symm
  | priv k =>
    change remoteText true u = Monitor.priv ++ _ ↔ _ ∧ _
    by_cases h : u &&& 0x40 = 0
    · rw [remoteText_of_no_tag h, List.append_cancel_left_eq, decimal_inj]
      exact (and_iff_right h).symm
    · rw [remoteText_of_tag h]
      exact iff_of_false (by simp [Monitor.syncPci, Monitor.priv]) fun hfit => h hfit.1
  | ibiz k =>
    change remoteText false u = Monitor.ibiz ++ _ ↔ _
    rw [remoteText_false, List.append_cancel_left_eq, decimal_inj]
    rfl

section Paths

open NamedInterface

/-- What the eight bits of an ordinal tell that the constructor makes of a slot and a port. -/
theorem fits_slotPort {slot port : Int32} (h : InRange slot port) (name : OrdinalName) :
    name.Fits ((0x40 : Int32) ||| ((slot &&& 0xf) <<< 2) ||| port).toUInt32.toUInt8 ↔
      name.Tells slot port := by
  obtain ⟨hs₀, hs, hp₀, hp⟩ := h
  rw [ge_iff_le, Int32.le_iff_toInt_le] at hs₀ hp₀
  rw [Int32.le_iff_toInt_le] at hs hp
  obtain ⟨s, hslot⟩ : ∃ s : Fin 16, slot.toInt = (s : ℕ) :=
    ⟨⟨slot.toInt.toNat, by grind⟩, (Int.toNat_of_nonneg hs₀).symm⟩
  obtain ⟨p, hport⟩ : ∃ p : Fin 4, port.toInt = (p : ℕ) :=
    ⟨⟨port.toInt.toNat, by grind⟩, (Int.toNat_of_nonneg hp₀).symm⟩
  have hbits : ∀ (s : Fin 16) (p : Fin 4),
      let u := ((0x40 : Int32) ||| ((Int32.ofInt (s : ℕ) &&& 0xf) <<< 2) |||
        Int32.ofInt (p : ℕ)).toUInt32.toUInt8
      u &&& 0x40 ≠ 0 ∧ ((u &&& 0x3c) >>> 2).toNat = s ∧ (u &&& 0x03).toNat = p ∧
        u.toNat = 64 + 4 * s + p := by
    decide +kernel
  have hofSlot : Int32.ofInt (s : ℕ) = slot := by rw [← hslot, Int32.ofInt_toInt]
  have hofPort : Int32.ofInt (p : ℕ) = port := by rw [← hport, Int32.ofInt_toInt]
  obtain ⟨htag, hfirst, hsecond, hall⟩ := hbits s p
  rw [hofSlot, hofPort] at htag hfirst hsecond hall
  cases name with
  | syncPci slot' port' =>
    rw [Fits, Tells, hfirst, hsecond, and_iff_right htag, hslot, hport, Int.natCast_inj,
      Int.natCast_inj]
  | priv k => exact iff_of_false (fun hfit => htag hfit.1) id
  | ibiz k =>
    rw [Fits, Tells, hall, hslot, hport]
    omega

theorem isLower_of_digit {c : UInt8} (h : isDigit c = true) : isLower c = false := by
  have hall : ∀ c : Fin 256, isDigit (UInt8.ofFin c) = true → isLower (UInt8.ofFin c) = false := by
    decide +kernel
  exact hall c.toFin h

/-- `rename` reads the number behind the letters. -/
theorem scanOrdinal_append {letters : List UInt8} (hne : letters ≠ [])
    (hletters : ∀ c ∈ letters, isLower c = true) (k : ℕ) :
    scanOrdinal (letters ++ decimal k) = some (Int32.ofInt k) := by
  have hdigits : (decimal k).takeWhile isLower = [] ∧
      (decimal k).dropWhile isLower = decimal k := by
    cases hk : decimal k with
    | nil => exact absurd hk decimal_ne_nil
    | cons c digits =>
      have hc := isLower_of_digit (isDigit_of_mem_decimal (hk ▸ List.mem_cons_self))
      simp [hc]
  have hscan := scanInt_decimal_nil k
  rw [scanOrdinal, List.takeWhile_append_of_pos hletters, hdigits.1, List.append_nil, if_neg hne,
    List.dropWhile_append_of_pos hletters, hdigits.2, hscan]
  rfl

theorem scanOrdinal_syncPci (slot : Fin 16) (port : Fin 4) :
    scanOrdinal (syncPci slot port).text = none := by
  have hrest : (syncPci slot port).text.dropWhile isLower =
      [95, 112, 99, 105] ++ decimal slot ++ [112] ++ decimal port := rfl
  rw [scanOrdinal, hrest, if_neg (by simp [text, Monitor.syncPci, isLower])]
  rfl

theorem toUInt8_ofInt (k : ℕ) : (Int32.ofInt k).toUInt32.toUInt8 = UInt8.ofNat k := by
  have hword : (Int32.ofInt k).toUInt32 = UInt32.ofNat k := by
    rw [Int32.ofInt_eq_ofNat]
    rfl
  rw [hword, ← UInt8.toNat_inj, UInt32.toNat_toUInt8, UInt32.toNat_ofNat', UInt8.toNat_ofNat']
  omega

theorem rename_ordinal (interface : NamedInterface) (name : List UInt8) :
    (rename interface true name).2.ordinal = (scanOrdinal name).getD 0 := rfl

end Paths

/-- The pointer that the constructor has not assigned leads to a string. A slot and a port are
scanned from it and tell the name, or none are, and what is left in the other member does. -/
def KeptByConstructor (memory : Memory) (pointer : ℕ) (ordinal : Int32) (name : OrdinalName) :
    Prop :=
  ∃ string, memory.string pointer = some string ∧
    ((∃ slot port, NamedInterface.scanSlotPort string = some (slot, port) ∧
        NamedInterface.InRange slot port ∧ name.Tells slot port) ∨
      (∀ slot port, NamedInterface.scanSlotPort string = some (slot, port) →
        ¬ NamedInterface.InRange slot port) ∧ name.Fits ordinal.toUInt32.toUInt8)

/-- `rename` reads an ordinal that eight bits tell. -/
def KeptByRename : OrdinalName → Prop
  | syncPci _ _ => False
  | priv k => k.val < 256 ∧ k.val / 64 % 2 = 0
  | ibiz k => k.val < 256

theorem keptByConstructor_iff (name : OrdinalName) (memory : Memory) (pointer : ℕ)
    (ordinal : Int32) : name.RoundTripsByConstructor memory pointer ordinal ↔
      name.KeptByConstructor memory pointer ordinal := by
  simp only [RoundTripsByConstructor, KeptByConstructor, NamedInterface.construct, roundTrips_iff]
  cases memory.string pointer with
  | none => simp
  | some string =>
    simp only [Option.bind_eq_bind, Option.bind_some, Option.some.injEq, exists_eq_left']
    cases hscan : NamedInterface.scanSlotPort string with
    | none => simp
    | some sp =>
      obtain ⟨slot, port⟩ := sp
      by_cases h : NamedInterface.InRange slot port
      · have hfits := fits_slotPort h name
        dsimp only
        generalize (0x40 : Int32) ||| ((slot &&& 0xf) <<< 2) ||| port = made at hfits ⊢
        simp [h, hfits]
      · simp [h]

theorem keptByRename_iff (name : OrdinalName) (interface : NamedInterface) :
    name.RoundTrips (interface.rename true name.text).2.ordinal ↔ name.KeptByRename := by
  rw [roundTrips_iff, rename_ordinal]
  have hbit : ∀ u : Fin 256, UInt8.ofFin u &&& 0x40 = 0 ↔ u.val / 64 % 2 = 0 := by decide +kernel
  cases name with
  | syncPci slot port =>
    rw [scanOrdinal_syncPci]
    exact iff_of_false (fun h => h.1 rfl) id
  | priv k =>
    rw [text, scanOrdinal_append (by decide) (List.all_eq_true.mp rfl), Option.getD_some,
      toUInt8_ofInt]
    change UInt8.ofNat k &&& 0x40 = 0 ∧ (UInt8.ofNat k).toNat = k ↔ _ ∧ _
    have hk : UInt8.ofNat k &&& 0x40 = 0 ↔ (UInt8.ofNat k).toNat / 64 % 2 = 0 :=
      hbit (UInt8.ofNat k).toFin
    rw [hk, UInt8.toNat_ofNat']
    omega
  | ibiz k =>
    rw [text, scanOrdinal_append (by decide) (List.all_eq_true.mp rfl), Option.getD_some,
      toUInt8_ofInt]
    change (UInt8.ofNat k).toNat = k ↔ k.val < 256
    rw [UInt8.toNat_ofNat']
    omega

/-- By the constructor a name comes back when the members that it does not assign happen to tell
it, and so no name whatever they hold. By `rename` the `priv` and `ibiz` names with a number below
256 come back, without the tag for `priv`. -/
theorem ordinal_round_trip_iff (name : OrdinalName) :
    (∀ memory pointer ordinal, name.RoundTripsByConstructor memory pointer ordinal ↔
      name.KeptByConstructor memory pointer ordinal) ∧
    (∀ interface : NamedInterface,
      name.RoundTrips (interface.rename true name.text).2.ordinal ↔ name.KeptByRename) ∧
    ¬ ∀ memory pointer ordinal, name.RoundTripsByConstructor memory pointer ordinal := by
  refine ⟨name.keptByConstructor_iff, name.keptByRename_iff, fun h => ?_⟩
  obtain ⟨i, hnull, -⟩ := h .empty 0 0
  cases hnull

/-- `sync_pci3p2` and `priv64` by `rename`; `sync_pci3p2` by the constructor where the pointer is
NULL, and `ibiz5` where it leads to this very name. -/
theorem ordinal_lost :
    ¬ (syncPci 3 2).RoundTrips
      (NamedInterface.rename ⟨[], 0, true⟩ true (syncPci 3 2).text).2.ordinal ∧
    ¬ (priv 64).RoundTrips (NamedInterface.rename ⟨[], 0, true⟩ true (priv 64).text).2.ordinal ∧
    ¬ (syncPci 3 2).RoundTripsByConstructor .empty 0 0 ∧
    ¬ (ibiz 5).RoundTripsByConstructor (.write .empty 4096 ((ibiz 5).text ++ [0])) 4096 0 := by
  rw [keptByRename_iff, keptByRename_iff, keptByConstructor_iff, keptByConstructor_iff]
  have hstring : Memory.string (.write .empty 4096 ((ibiz 5).text ++ [0])) 4096 =
      some (ibiz 5).text :=
    Memory.string_of_stringAt ⟨by decide +kernel, Memory.holds_write ..⟩
  refine ⟨id, fun h => absurd h.2 (by decide), nofun, ?_⟩
  rintro ⟨string, hsome, h⟩
  obtain rfl := Option.some.inj (hstring.symm.trans hsome)
  rcases h with ⟨slot, port, hscan, -⟩ | ⟨-, hfit⟩
  · cases hscan
  · exact absurd (show (0 : ℕ) = 5 from hfit) (by decide)

end OrdinalName

end Redx.Monitor
