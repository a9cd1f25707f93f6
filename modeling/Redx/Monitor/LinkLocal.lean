import Redx.Monitor.Neighbor
import Mathlib.Algebra.GroupWithZero.Nat

/-!
# The link-local address of an interface

`eui64` sets the universal/local bit of the MAC address, where the address that the kernel gives
to the interface has the bit inverted.
-/
namespace Redx.Monitor

/-- `MAC` of an interface. -/
abbrev Mac := Fin 6 → UInt8

local instance neZero_six : NeZero 6 := ⟨Nat.succ_ne_zero 5⟩

/-- `Interface::eui64` -/
def eui64 (mac : Mac) : Fin 8 → UInt8 :=
  ![mac 0 ||| 0x02, mac 1, mac 2, 0xFF, 0xFE, mac 3, mac 4, mac 5]

/-- `Interface::lladdr` -/
def lladdr (mac : Mac) : In6Addr :=
  Fin.append ![0xfe, 0x80, 0x00, 0x00, 0x00, 0x00, 0x00, 0x00] (eui64 mac)

/-- `Interface::is_primary` for an interface with this `primary_address`. -/
def isPrimary (primary : In6Addr) : Option In6Addr → Bool
  | none => false
  | some address => (List.finRange 16).all fun i => address i == primary i

/-- The modified EUI-64 of RFC 4291 behind `fe80::/64`: what the kernel derives. -/
def linkLocal (mac : Mac) : In6Addr :=
  Fin.append ![0xfe, 0x80, 0, 0, 0, 0, 0, 0]
    ![mac 0 ^^^ 0x02, mac 1, mac 2, 0xFF, 0xFE, mac 3, mac 4, mac 5]

/-- The interface derives the kernel's address, and knows it for its own. -/
def Derives (mac : Mac) : Prop :=
  lladdr mac = linkLocal mac ∧ isPrimary (lladdr mac) (some (linkLocal mac)) = true

/-- The universal/local bit. -/
def isLocal (mac : Mac) : Bool := mac 0 &&& 0x02 != 0

variable {mac mac₁ mac₂ : Mac}

theorem isPrimary_iff {primary address : In6Addr} :
    isPrimary primary (some address) = true ↔ address = primary := by
  rw [isPrimary, List.all_eq_true]
  constructor
  · intro h
    funext i
    exact eq_of_beq (h i (List.mem_finRange i))
  · rintro rfl i _
    exact beq_self_eq_true _

/-- Two addresses `fe80::/64` are the same when the six bytes from the MAC are. -/
theorem append_inj {a b c d e f a' b' c' d' e' f' : UInt8} :
    (Fin.append ![0xfe, 0x80, 0, 0, 0, 0, 0, 0] ![a, b, c, 0xFF, 0xFE, d, e, f] : In6Addr) =
      Fin.append ![0xfe, 0x80, 0, 0, 0, 0, 0, 0] ![a', b', c', 0xFF, 0xFE, d', e', f'] ↔
    a = a' ∧ b = b' ∧ c = c' ∧ d = d' ∧ e = e' ∧ f = f' := by
  constructor
  · intro h
    exact ⟨congrFun h 8, congrFun h 9, congrFun h 10, congrFun h 13, congrFun h 14, congrFun h 15⟩
  · rintro ⟨rfl, rfl, rfl, rfl, rfl, rfl⟩
    rfl

theorem or_eq_xor_iff (b : UInt8) : b ||| 0x02 = b ^^^ 0x02 ↔ b &&& 0x02 = 0 := by
  have h : ∀ n : Fin 256, UInt8.ofFin n ||| 0x02 = UInt8.ofFin n ^^^ 0x02 ↔
      UInt8.ofFin n &&& 0x02 = 0 := by decide +kernel
  exact h b.toFin

theorem xor_inj {a b : UInt8} : a ^^^ 0x02 = b ^^^ 0x02 ↔ a = b := UInt8.xor_left_inj 2

theorem isLocal_eq_false : isLocal mac = false ↔ mac 0 &&& 0x02 = 0 := by
  simp [isLocal]

/-- Setting the bit is inverting it exactly when it is clear. -/
theorem lladdr_eq_iff : lladdr mac = linkLocal mac ↔ isLocal mac = false := by
  rw [lladdr, eui64, linkLocal, append_inj, isLocal_eq_false, ← or_eq_xor_iff]
  simp

theorem linkLocal_inj : linkLocal mac₁ = linkLocal mac₂ ↔ mac₁ = mac₂ := by
  rw [linkLocal, linkLocal, append_inj, xor_inj]
  constructor
  · rintro ⟨h0, h1, h2, h3, h4, h5⟩
    funext i
    fin_cases i
    exacts [h0, h1, h2, h3, h4, h5]
  · rintro rfl
    exact ⟨rfl, rfl, rfl, rfl, rfl, rfl⟩

theorem derives_iff : Derives mac ↔ isLocal mac = false := by
  rw [Derives, isPrimary_iff, eq_comm (a := linkLocal mac), and_self, lladdr_eq_iff]

/-- Two interfaces have the addresses that the kernel gives them, and share one only if they share
the MAC, exactly when neither MAC is locally administered. For one interface, this alone decides
whether the address is right and whether `is_primary` knows the kernel's. -/
theorem link_local_iff (mac₁ mac₂ : Mac) :
    ((lladdr mac₁ = lladdr mac₂ → mac₁ = mac₂) ∧ Derives mac₁ ∧ Derives mac₂ ↔
      isLocal mac₁ = false ∧ isLocal mac₂ = false) ∧
    (lladdr mac₁ = linkLocal mac₁ ↔ isLocal mac₁ = false) ∧
    (isPrimary (lladdr mac₁) (some (linkLocal mac₁)) = true ↔ isLocal mac₁ = false) := by
  refine ⟨?_, lladdr_eq_iff, ?_⟩
  · rw [derives_iff, derives_iff]
    refine ⟨fun h => h.2, fun h => ⟨fun heq => ?_, h⟩⟩
    rw [lladdr_eq_iff.mpr h.1, lladdr_eq_iff.mpr h.2] at heq
    exact linkLocal_inj.mp heq
  · rw [isPrimary_iff, eq_comm, lladdr_eq_iff]

/-- A locally administered MAC and its universal twin. -/
theorem local_mac_collides :
    lladdr ![0x02, 0x16, 0x3e, 0, 0, 1] = lladdr ![0x00, 0x16, 0x3e, 0, 0, 1] ∧
    (![0x02, 0x16, 0x3e, 0, 0, 1] : Mac) ≠ ![0x00, 0x16, 0x3e, 0, 0, 1] ∧
    ¬ Derives ![0x02, 0x16, 0x3e, 0, 0, 1] := by
  refine ⟨rfl, by decide, fun h => ?_⟩
  exact absurd (derives_iff.mp h) (by decide)

end Redx.Monitor
