import Redx.Library.Halt
import Redx.Protobuf.Walk
import Mathlib.Data.Int.Interval
import Mathlib.Data.Finite.Prod

/-!
# Termination of the parser

A length that is negative as an `int` passes the check against `remaining` and moves the cursor
back. Such a field is the only way not to come to an end, and it is one exactly when the passes
from where it moves the cursor to lead to it again.
-/
namespace Redx.Protobuf
open Library Relation

variable {memory : Memory} {state state' chunk : Buffer}

/-- When a run comes to its end, so do the passes that it leads to, with less fuel. -/
theorem Leads.ended {n : ℕ} (hl : Leads memory state state')
    (h : (parse memory (n + 1) state).outcome ≠ .running) :
    (parse memory n state').outcome ≠ .running := by
  rcases hl with (⟨hs, hc⟩ | ⟨c, hs, hc, hr⟩) | ⟨hs, s, hc⟩
  · rw [parse_next hs hc] at h
    exact h
  · by_cases hrun : (parse memory n c).outcome = .running
    · rw [parse_chunk_cut hs hc (by rw [hrun]; rintro ⟨_, _, ⟨⟩⟩)] at h
      exact absurd hrun h
    · obtain ⟨code, final, ho⟩ := hr.returned hrun
      rw [parse_chunk_returned hs hc ho] at h
      exact h
  · by_cases ho : ∃ code final, (parse memory n state').outcome = .returned code final
    · obtain ⟨code, final, ho⟩ := ho
      rw [ho]
      nofun
    · rw [parse_chunk_cut hs hc ho] at h
      exact h

theorem acc_of_ends (h : Ends memory state) : Acc (flip (Leads memory)) state := by
  obtain ⟨fuel, h⟩ := h
  induction fuel generalizing state with
  | zero => exact absurd rfl h
  | succ n ih => exact .intro _ fun t hl => ih (hl.ended h)

/-- A call ends when the passes that it leads to, and the calls for its chunks, do. -/
theorem ends_of_leads (ih : ∀ t, Leads memory state t → Ends memory t) : Ends memory state := by
  by_cases hs : notEmpty state
  · cases hc : (pass memory state).control with
    | fault => exact ⟨1, by rw [parse_fault hs hc]; nofun⟩
    | emsgsize state' => exact ⟨1, by rw [parse_emsgsize hs hc]; nofun⟩
    | next state' =>
      obtain ⟨n, hn⟩ := ih state' (.inl (.next hs hc))
      refine ⟨n + 1, ?_⟩
      rw [parse_next hs hc]
      exact hn
    | chunk c state' =>
      obtain ⟨n, hn⟩ := ih c (.inr ⟨hs, state', hc⟩)
      by_cases ho : ∃ code final, (parse memory n c).outcome = .returned code final
      · obtain ⟨code, final, ho⟩ := ho
        obtain ⟨k, hk⟩ := ih state' (.inl (.chunk c hs hc ⟨n, code, final, ho⟩))
        -- the fuel of the longer of the two runs is enough for both
        have hn := parse_of_le hn (Nat.le_max_left n k)
        rw [← parse_of_le hk (Nat.le_max_right n k)] at hk
        refine ⟨max n k + 1, ?_⟩
        rw [parse_chunk_returned hs hc (hn ▸ ho)]
        exact hk
      · refine ⟨n + 1, ?_⟩
        rw [parse_chunk_cut hs hc ho]
        exact hn
  · exact ⟨1, by rw [parse_of_empty hs]; nofun⟩

/-- A call ends exactly when there is no endless walk through its passes and those of its calls. -/
theorem ends_iff_acc : Ends memory state ↔ Acc (flip (Leads memory)) state := by
  refine ⟨acc_of_ends, fun h => ?_⟩
  induction h with
  | intro state _ ih => exact ends_of_leads ih

/-- The field at the cursor has a negative length, and from where that moves the cursor to the
passes lead to the field again. -/
def Rewinds (memory : Memory) (state : Buffer) : Prop :=
  notEmpty state ∧ ∃ chunk state', (pass memory state).control = .chunk chunk state' ∧
    chunk.remaining < 0 ∧ ReflTransGen (Leads memory) state' state

theorem returns_of_empty (h : ¬ notEmpty state) : Returns memory state :=
  ⟨1, .zero, state, by rw [parse_of_empty h]⟩

theorem Rewinds.transGen (h : Rewinds memory state) : TransGen (Leads memory) state state := by
  obtain ⟨hs, chunk, state', hc, hneg, hback⟩ := h
  have hempty : ¬ notEmpty chunk := by unfold notEmpty; omega
  exact .head' (.inl (.chunk chunk hs hc (returns_of_empty hempty))) hback

theorem not_ends_of_rewinds (h : Rewinds memory state) : ¬ Ends memory state :=
  fun he => not_transGen_of_acc (ends_iff_acc.mp he) h.transGen

section Places

/-- The buffers whose cursor is in the address space and whose `remaining` is an `int`. -/
def places (memory : Memory) : Set Buffer :=
  {s | (0 ≤ s.dot ∧ s.dot ≤ memory.length) ∧ IsInt s.remaining}

theorem finite_places (memory : Memory) : (places memory).Finite := by
  refine (((Set.finite_Icc 0 (memory.length : ℤ)).prod (Set.finite_Ico (-2 ^ 31) (2 ^ 31))).image
    fun p : ℤ × ℤ => (⟨p.1, p.2⟩ : Buffer)).subset ?_
  exact fun s hs => ⟨(s.dot, s.remaining), hs, rfl⟩

theorem Leads.dot_mem (h : Leads memory state state') :
    0 ≤ state.dot ∧ state.dot ≤ memory.length := by
  have hpass (control : Control) (hc : (pass memory state).control = control)
      (hf : control ≠ .fault) : 0 ≤ state.dot ∧ state.dot ≤ memory.length := by
    obtain ⟨tag, n, hn, hr, -, -⟩ := pass_control hc hf
    obtain ⟨-, h₀, hlen⟩ := readVarint_some hr
    exact ⟨h₀, by omega⟩
  rcases h with (⟨-, hc⟩ | ⟨c, -, hc, -⟩) | ⟨-, s, hc⟩
  · exact hpass _ hc nofun
  · exact hpass _ hc nofun
  · exact hpass _ hc nofun

theorem Leads.isInt_remaining (h : Leads memory state state') :
    IsInt state'.remaining := by
  rcases h with (⟨-, hc⟩ | ⟨c, -, hc, -⟩) | ⟨-, s, hc⟩
  · obtain ⟨n, -, rfl, -⟩ := pass_next hc
    exact isInt_narrow _
  · obtain ⟨n, x, -, -, -, -, rfl⟩ := pass_chunk hc
    exact isInt_narrow _
  · obtain ⟨n, x, -, -, rfl, -, -⟩ := pass_chunk hc
    exact isInt_narrow _

/-- A step that does not move the cursor forward is that of a negative length. -/
theorem Leads.rewinds (h : Leads memory state state') (hdot : state'.dot ≤ state.dot)
    (hback : ReflTransGen (Leads memory) state' state) : Rewinds memory state := by
  rcases h with (⟨-, hc⟩ | ⟨c, hs, hc, -⟩) | ⟨-, s, hc⟩
  · obtain ⟨n, hn, rfl, -⟩ := pass_next hc
    simp only [increment] at hdot
    omega
  · obtain ⟨n, x, hn, -, -, -, hstate⟩ := pass_chunk hc
    have hdot' : state'.dot = state.dot + (n + c.remaining) := congrArg Buffer.dot hstate
    exact ⟨hs, c, state', hc, by omega, hback⟩
  · obtain ⟨n, x, hn, -, rfl, -, -⟩ := pass_chunk hc
    dsimp only at hdot
    omega

end Places

/-- Without a field that rewinds, a call comes to its end. -/
theorem ends_of_not_rewinds (hint : IsInt state.remaining)
    (h : ∀ s, ReflTransGen (Leads memory) state s → ¬ Rewinds memory s) : Ends memory state := by
  refine ends_iff_acc.mpr (acc_of_acyclic (finite_places memory) ?_ ?_)
  · intro a b ha hab
    refine ⟨hab.dot_mem, ?_⟩
    rcases ha.cases_tail with rfl | ⟨c, -, hca⟩
    · exact hint
    · exact hca.isInt_remaining
  · intro a ha hcircle
    obtain ⟨b, c, hab, hbc, hdot, hback⟩ := exists_drop_of_circle Buffer.dot hcircle
    exact h b (ha.trans hab) (hbc.rewinds hdot hback)

/-- A call ends exactly when no field it comes to rewinds. -/
theorem ends_iff_not_rewinds (hint : IsInt state.remaining) :
    Ends memory state ↔ ∀ s, ReflTransGen (Leads memory) state s → ¬ Rewinds memory s := by
  refine ⟨fun he s hs hr => not_ends_of_rewinds hr ?_, ends_of_not_rewinds hint⟩
  exact ends_iff_acc.mpr (acc_of_reflTransGen (ends_iff_acc.mp he) hs)

section Lengths

/-- The cursor of the pass is moved by a negative length. -/
def Control.goesBack : Control → Prop
  | .chunk chunk _ => chunk.remaining < 0
  | _ => False

instance : DecidablePred Control.goesBack
  | .chunk chunk _ => inferInstanceAs (Decidable (chunk.remaining < 0))
  | .fault | .emsgsize _ | .next _ => .isFalse id

theorem Control.goesBack_iff {control : Control} :
    control.goesBack ↔ ∃ chunk state', control = .chunk chunk state' ∧ chunk.remaining < 0 := by
  cases control <;> simp [goesBack]

/-- The field at the cursor has a length that is negative as an `int`, and that the check against
`remaining` lets pass. -/
def NegativeLength (memory : Memory) (state : Buffer) : Prop :=
  notEmpty state ∧ ∃ tag next length behind,
    (readVarint memory state).result = some (tag, next) ∧ wireType tag = 2 ∧
      (readVarint memory next).result = some (length, behind) ∧
        narrow length.toNat < 0 ∧ narrow length.toNat ≤ behind.remaining

/-- Nothing of a chunk with a negative length is printed, nor read. -/
theorem lengthCase_of_neg {length : UInt64} (hneg : narrow length.toNat < 0)
    (hle : narrow length.toNat ≤ state.remaining) :
    (lengthCase memory length state).control =
      .chunk ⟨state.dot, narrow length.toNat⟩ (increment state (narrow length.toNat)) := by
  have hdump : (dump memory ⟨state.dot, narrow length.toNat⟩).result =
      some ([], ⟨state.dot, narrow length.toNat⟩) := by
    simp only [dump, Int.toNat_of_nonpos hneg.le, byteLoop, Option.map_some]
  dsimp only [lengthCase]
  rw [if_neg (by omega), Pass.control_print, Reading.andThen, hdump]

theorem negativeLength_iff : NegativeLength memory state ↔
    notEmpty state ∧ (pass memory state).control.goesBack := by
  constructor
  · rintro ⟨hs, tag, next, length, behind, htag, htype, hlength, hneg, hle⟩
    refine ⟨hs, ?_⟩
    rw [pass_length htag htype hlength, lengthCase_of_neg hneg hle]
    exact hneg
  · rintro ⟨hs, hback⟩
    obtain ⟨chunk, state', hc, hneg⟩ := Control.goesBack_iff.mp hback
    obtain ⟨tag, n, -, htag, -, hswitch⟩ := pass_control hc nofun
    obtain ⟨htype, length, behind, hlength, hcase⟩ := switch_chunk hswitch
    obtain ⟨rfl, hle, -⟩ := lengthCase_chunk hcase
    exact ⟨hs, tag, _, length, behind, htag, htype, hlength, hneg, hle⟩

theorem Rewinds.negativeLength (h : Rewinds memory state) : NegativeLength memory state := by
  obtain ⟨hs, chunk, state', hc, hneg, -⟩ := h
  exact negativeLength_iff.mpr ⟨hs, Control.goesBack_iff.mpr ⟨chunk, state', hc, hneg⟩⟩

instance (memory : Memory) (state : Buffer) : Decidable (NegativeLength memory state) :=
  decidable_of_iff _ negativeLength_iff.symm

end Lengths

/-- `parse` terminates on a file when no field it comes to, in the file or in a chunk at any
depth, has a negative length. -/
theorem parse_ends (image : Image)
    (h : ∀ s, ReflTransGen (Leads image.memory) image.buffer s →
      ¬ NegativeLength image.memory s) : Ends image.memory image.buffer :=
  ends_of_not_rewinds (isInt_narrow _) fun s hs hr => h s hs hr.negativeLength

theorem parse_ends_nested : Ends nested.memory nested.buffer := by
  refine parse_ends nested fun s hs => ?_
  have hmem : s ∈ nestedBuffers := by
    induction hs with
    | refl => exact mem_nestedBuffers
    | tail _ hl ih =>
      rcases hl with hnext | henter
      · simp [nestedBuffers, hnext.nested ih]
      · simp [nestedBuffers, henter.nested ih]
  exact (by decide +kernel : ∀ s ∈ nestedBuffers, ¬ NegativeLength nested.memory s) s hmem

/-- A field of six bytes whose length is -6 as an `int`. -/
def rewound : Image := ⟨[], [0x0A, 0xFA, 0xFF, 0xFF, 0xFF, 0x0F], []⟩

theorem rewound_never_ends : ¬ Ends rewound.memory rewound.buffer := by
  refine not_ends_of_rewinds ⟨by decide +kernel, ⟨6, -6⟩, rewound.buffer, ?_, by decide, .refl⟩
  decide +kernel

end Redx.Protobuf
