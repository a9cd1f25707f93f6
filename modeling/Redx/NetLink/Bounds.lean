import Redx.NetLink.Receive

/-!
# Bounds of the dispatch loop

As long as the remaining length ends where the datagram does, a header in order lies inside the
datagram. `NLMSG_NEXT` takes the aligned length off an unsigned counter, which wraps after a last
message without padding, and the type of a message indexes the table without a test.
-/
namespace Redx.NetLink
open Library

/-- The message ends the datagram. -/
def Ends (memory : ℕ → UInt8) (h : ℕ) : Prop :=
  nlmsgType memory h = nlmsgDone ∨ nlmsgType memory h = nlmsgError

/-- The headers for which the loop over a datagram evaluates `NLMSG_OK`, with the length that
remains there. -/
inductive Tests (table : Table) (memory : ℕ → UInt8) (status : ℕ) : ℕ → ℕ → Prop
  | first : Tests table memory status 0 status
  | next {h length : ℕ} : Tests table memory status h length → NlmsgOk memory h length →
      ¬ Ends memory h → (hType : nlmsgType memory h < maxRtFactory) →
      table ⟨nlmsgType memory h, hType⟩ ≠ none →
      Tests table memory status (h + align (nlmsgLen memory h)) (nextLength memory h length)

/-- Every header that `NLMSG_OK` reads lies in the datagram; one in order lies there with its
message, and indexes an element of the table unless it ends the datagram. -/
def Within (table : Table) (memory : ℕ → UInt8) (status : ℕ) : Prop :=
  ∀ h length, Tests table memory status h length →
    (sizeofHeader ≤ length → h + sizeofHeader ≤ status) ∧
    (NlmsgOk memory h length → h + nlmsgLen memory h ≤ status ∧
      (¬ Ends memory h → nlmsgType memory h < maxRtFactory))

/-- The type has an element in the table and, if there is a factory in it, the bytes that remain
hold the padding of the message too. -/
def Regular (table : Table) (memory : ℕ → UInt8) (h length : ℕ) : Prop :=
  ∃ hType : nlmsgType memory h < maxRtFactory,
    table ⟨nlmsgType memory h, hType⟩ ≠ none → align (nlmsgLen memory h) ≤ length

/-- What the loop does stays inside the datagram and the table. -/
def Event.InBounds (memory : ℕ → UInt8) (status : ℕ) : Event → Prop
  | .header h length => h + length ≤ status
  | .index type => type < maxRtFactory
  | .deliver _ h => h + nlmsgLen memory h ≤ status

variable {table : Table} {memory : ℕ → UInt8} {status h length fuel : ℕ} {events : List Event}
  {exit : Option Exit}

/-- `NLMSG_NEXT` on a message whose padding is there. -/
theorem nextLength_of_le (hlen : length < 2 ^ 32) (hle : align (nlmsgLen memory h) ≤ length) :
    nextLength memory h length = length - align (nlmsgLen memory h) := by
  rw [nextLength]
  omega

/-- `NLMSG_NEXT` on a message whose padding is missing: the counter wraps. -/
theorem nextLength_of_lt (hlen : length < 2 ^ 31) (hok : NlmsgOk memory h length)
    (hlt : length < align (nlmsgLen memory h)) : sizeofHeader ≤ nextLength memory h length := by
  obtain ⟨-, -, hle⟩ := hok
  simp only [nextLength, align, sizeofHeader] at *
  omega

theorem Tests.length_eq (ht : Tests table memory status h length) (hstatus : status ≤ bufferSize)
    (hreg : ∀ h length, Tests table memory status h length → NlmsgOk memory h length →
      ¬ Ends memory h → Regular table memory h length) : h + length = status := by
  induction ht with
  | first => exact Nat.zero_add status
  | @next h length ht hok hend hType hfactory ih =>
    obtain ⟨_, hle⟩ := hreg h length ht hok hend
    have hle := hle hfactory
    rw [nextLength_of_le (by unfold bufferSize at hstatus; omega) hle]
    omega

/-- When every message is regular, nothing leaves the datagram or the table. -/
theorem within_of_regular (hstatus : status ≤ bufferSize)
    (hreg : ∀ h length, Tests table memory status h length → NlmsgOk memory h length →
      ¬ Ends memory h → Regular table memory h length) : Within table memory status := by
  intro h length ht
  have hlen := ht.length_eq hstatus hreg
  refine ⟨fun hsize => by omega, fun hok => ⟨?_, fun hend => ?_⟩⟩
  · have := hok.2.2
    omega
  · obtain ⟨hType, -⟩ := hreg h length ht hok hend
    exact hType

/-- At the first message that is not regular the loop leaves one of the two. -/
theorem regular_of_within (hstatus : status ≤ bufferSize) (hw : Within table memory status)
    (ht : Tests table memory status h length) (hinside : h + length = status)
    (hok : NlmsgOk memory h length) (hend : ¬ Ends memory h) :
    Regular table memory h length := by
  refine ⟨((hw h length ht).2 hok).2 hend, fun hfactory => ?_⟩
  by_contra hlt
  have hbound : length < 2 ^ 31 := by
    unfold bufferSize at hstatus
    omega
  have hnext := (hw _ _ (.next ht hok hend _ hfactory)).1
    (nextLength_of_lt hbound hok (by omega))
  omega

theorem length_eq_of_within (hstatus : status ≤ bufferSize) (hw : Within table memory status)
    (ht : Tests table memory status h length) : h + length = status := by
  induction ht with
  | first => exact Nat.zero_add status
  | @next h length ht hok hend hType hfactory ih =>
    obtain ⟨_, hle⟩ := regular_of_within hstatus hw ht ih hok hend
    have hle := hle hfactory
    rw [nextLength_of_le (by unfold bufferSize at hstatus; omega) hle]
    omega

/-- What the loop does from a header on is about headers that it tests. -/
theorem Within.walk (hw : Within table memory status) (ht : Tests table memory status h length)
    (hwalk : walk table memory fuel h length = some (events, exit)) :
    (∀ e ∈ events, e.InBounds memory status) ∧ exit ≠ some .outOfBounds := by
  induction fuel generalizing h length events exit with
  | zero => cases hwalk
  | succ fuel ih =>
    rw [NetLink.walk] at hwalk
    split at hwalk
    · rename_i hok
      obtain ⟨hinside, hindex⟩ := (hw h length ht).2 hok
      by_cases hdone : nlmsgType memory h = nlmsgDone
      · rw [if_pos hdone] at hwalk
        obtain ⟨rfl, rfl⟩ := Prod.mk.inj (Option.some.inj hwalk)
        simp [Event.InBounds, hinside]
      · rw [if_neg hdone] at hwalk
        by_cases herror : nlmsgType memory h = nlmsgError
        · rw [if_pos herror] at hwalk
          obtain ⟨rfl, rfl⟩ := Prod.mk.inj (Option.some.inj hwalk)
          simp [Event.InBounds, hinside]
        · have hend : ¬ Ends memory h := fun hend => hend.elim hdone herror
          have hType := hindex hend
          rw [if_neg herror, dif_pos hType] at hwalk
          cases hfactory : table ⟨nlmsgType memory h, hType⟩ with
          | none =>
            rw [hfactory] at hwalk
            obtain ⟨rfl, rfl⟩ := Prod.mk.inj (Option.some.inj hwalk)
            simp [Event.InBounds, hinside, hType]
          | some factory =>
            rw [hfactory] at hwalk
            dsimp only at hwalk
            split at hwalk
            · cases hwalk
            · rename_i rest exit' hrest
              obtain ⟨rfl, rfl⟩ := Prod.mk.inj (Option.some.inj hwalk)
              have hnext := ih (.next ht hok hend hType (by simp [hfactory])) hrest
              simpa [Event.InBounds, hinside, hType] using hnext
    · obtain ⟨rfl, rfl⟩ := Prod.mk.inj (Option.some.inj hwalk)
      simp

/-- The loop over a datagram stays inside the datagram and the table if and only if every message
that it looks up is regular; then what it does is in bounds. -/
theorem within_iff (hstatus : status ≤ bufferSize) :
    (Within table memory status ↔
      ∀ h length, Tests table memory status h length → NlmsgOk memory h length →
        ¬ Ends memory h → Regular table memory h length) ∧
    (Within table memory status →
      ∀ fuel events exit, walk table memory fuel 0 status = some (events, exit) →
        (∀ e ∈ events, e.InBounds memory status) ∧ exit ≠ some .outOfBounds) := by
  refine ⟨⟨fun hw h length ht hok hend => ?_, within_of_regular hstatus⟩,
    fun hw fuel events exit hwalk => hw.walk .first hwalk⟩
  exact regular_of_within hstatus hw ht (length_eq_of_within hstatus hw ht) hok hend

theorem within_iff_link :
    (Within registeredTable (fun i => oneLink.bytes.getD i 0) 32 ↔
      ∀ h length, Tests registeredTable (fun i => oneLink.bytes.getD i 0) 32 h length →
        NlmsgOk (fun i => oneLink.bytes.getD i 0) h length →
        ¬ Ends (fun i => oneLink.bytes.getD i 0) h →
          Regular registeredTable (fun i => oneLink.bytes.getD i 0) h length) ∧
    (Within registeredTable (fun i => oneLink.bytes.getD i 0) 32 →
      ∀ fuel events exit,
        walk registeredTable (fun i => oneLink.bytes.getD i 0) fuel 0 32 = some (events, exit) →
        (∀ e ∈ events, e.InBounds (fun i => oneLink.bytes.getD i 0) 32) ∧
          exit ≠ some .outOfBounds) :=
  within_iff (by decide)

/-- A message of type 1024 without payload. -/
def pastTable : Message := ⟨1024, 0, 0, 0, []⟩

/-- In the program as it is initialised the loop reads past the table for a single message of
type 1024. -/
theorem not_within :
    walk (appInit [.netLink]).netLink (fun i => pastTable.bytes.getD i 0) 1 0 16 =
      some ([.header 0 16, .index 1024], some .outOfBounds) ∧
    ¬ Within (appInit [.netLink]).netLink (fun i => pastTable.bytes.getD i 0) 16 := by
  have hwalk : walk (appInit [.netLink]).netLink (fun i => pastTable.bytes.getD i 0) 1 0 16 =
      some ([.header 0 16, .index 1024], some .outOfBounds) := by decide +kernel
  exact ⟨hwalk, fun hw => (hw.walk .first hwalk).2 rfl⟩

end Redx.NetLink
