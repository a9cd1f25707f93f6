import Redx.Library.Run
import Mathlib.Data.List.TakeWhile

/-!
# A command with a time limit

`timeout` starts a child whose output goes into a pipe, waits for it with `wait_for_child`, and
reads the pipe only after the child has exited. Parent and child take their steps in any order.
-/
namespace Redx.Process
open Library

inductive Status where
  | absent
  | running
  | exited
  | killed
  deriving DecidableEq, Repr

/-- Where `timeout` is; `waiting` is the test of the loop in `wait_for_child`. -/
inductive Parent where
  | starting
  | waiting (timeout : ℤ)
  | sleeping (timeout : ℤ)
  | killing
  | reading (result : List UInt8)
  | returned (code : Except String (List UInt8))

/-- Both processes, with the output that the child has still to write and the bytes in the pipe. -/
structure System where
  parent : Parent
  child : Status
  remaining : List UInt8
  pipe : List UInt8

def System.initial (output : List UInt8) : System := ⟨.starting, .absent, output, []⟩

inductive Party where
  | parent
  | child

/-- The string that `Tcl_AppendResult` finds in the buffer, where a zero follows the bytes. -/
def appended (buffer : List UInt8) : List UInt8 := buffer.takeWhile (· ≠ 0)

/-- The steps of `timeout`, and of a child that writes its output and exits. -/
inductive Step (capacity : ℕ) (limit : ℤ) : System → Party → System → Prop
  | writes {parent : Parent} {remaining pipe : List UInt8} {m : ℕ} : 0 < m →
      m ≤ remaining.length → pipe.length + m ≤ capacity →
      Step capacity limit ⟨parent, .running, remaining, pipe⟩ .child
        ⟨parent, .running, remaining.drop m, pipe ++ remaining.take m⟩
  | exits {parent : Parent} {pipe : List UInt8} :
      Step capacity limit ⟨parent, .running, [], pipe⟩ .child ⟨parent, .exited, [], pipe⟩
  | denied {remaining pipe : List UInt8} :
      Step capacity limit ⟨.starting, .absent, remaining, pipe⟩ .parent
        ⟨.returned (.error "cannot execute command"), .absent, remaining, pipe⟩
  -- the text is that of `strerror_r`
  | notSpawned {remaining pipe : List UInt8} {text : String} :
      Step capacity limit ⟨.starting, .absent, remaining, pipe⟩ .parent
        ⟨.returned (.error text), .absent, remaining, pipe⟩
  | spawned {remaining pipe : List UInt8} :
      Step capacity limit ⟨.starting, .absent, remaining, pipe⟩ .parent
        ⟨.waiting limit, .running, remaining, pipe⟩
  | reaps {timeout : ℤ} {remaining pipe : List UInt8} : 0 < timeout →
      Step capacity limit ⟨.waiting timeout, .exited, remaining, pipe⟩ .parent
        ⟨.reading [], .exited, remaining, pipe⟩
  | polls {timeout : ℤ} {remaining pipe : List UInt8} : 0 < timeout →
      Step capacity limit ⟨.waiting timeout, .running, remaining, pipe⟩ .parent
        ⟨.sleeping timeout, .running, remaining, pipe⟩
  -- `waitpid` fails with another errno than EINTR, after which it is called again
  | pollFails {timeout : ℤ} {child : Status} {remaining pipe : List UInt8} : 0 < timeout →
      Step capacity limit ⟨.waiting timeout, child, remaining, pipe⟩ .parent
        ⟨.killing, child, remaining, pipe⟩
  | wakes {timeout : ℤ} {child : Status} {remaining pipe : List UInt8} :
      Step capacity limit ⟨.sleeping timeout, child, remaining, pipe⟩ .parent
        ⟨.waiting (timeout - 1), child, remaining, pipe⟩
  | expires {timeout : ℤ} {child : Status} {remaining pipe : List UInt8} : timeout ≤ 0 →
      Step capacity limit ⟨.waiting timeout, child, remaining, pipe⟩ .parent
        ⟨.killing, child, remaining, pipe⟩
  | kills {child : Status} {remaining pipe : List UInt8} :
      Step capacity limit ⟨.killing, child, remaining, pipe⟩ .parent
        ⟨.returned (.error "timed out waiting for child"),
          if child = .running then .killed else child, remaining, pipe⟩
  | reads {child : Status} {result remaining pipe : List UInt8} {m : ℕ} : 0 < m → m ≤ 127 →
      m ≤ pipe.length →
      Step capacity limit ⟨.reading result, child, remaining, pipe⟩ .parent
        ⟨.reading (result ++ appended (pipe.take m)), child, remaining, pipe.drop m⟩
  | ends {result remaining : List UInt8} :
      Step capacity limit ⟨.reading result, .exited, remaining, []⟩ .parent
        ⟨.returned (.ok result), .exited, remaining, []⟩
  | readFails {child : Status} {result remaining pipe : List UInt8} :
      Step capacity limit ⟨.reading result, child, remaining, pipe⟩ .parent
        ⟨.returned (.error "error reading output from child"), child, remaining, pipe⟩

/-- The child has more to write and the pipe is full. -/
def System.Blocked (capacity : ℕ) (s : System) : Prop :=
  s.child = .running ∧ s.remaining ≠ [] ∧ capacity ≤ s.pipe.length

/-- The time limit is not reached: there is time left to wait, or the wait has succeeded. -/
def Parent.InTime : Parent → Prop
  | .starting => True
  | .waiting timeout => 0 < timeout
  | .sleeping timeout => 0 < timeout
  | .killing => False
  | .reading _ => True
  | .returned _ => False

/-- Before the time limit the child is never blocked, it is not killed because it is blocked, and
a result that is returned is its whole output. -/
structure Progresses (capacity : ℕ) (limit : ℤ) (output : List UInt8) : Prop where
  unblocked : ∀ s, Reachable (Step capacity limit) (.initial output) s → s.parent.InTime →
    ¬ s.Blocked capacity
  spared : ∀ s, Reachable (Step capacity limit) (.initial output) s → 0 < limit →
    s.parent = .killing → ¬ s.Blocked capacity
  whole : ∀ s result, Reachable (Step capacity limit) (.initial output) s →
    s.parent = .returned (.ok result) → result = output

variable {capacity : ℕ} {limit : ℤ} {output : List UInt8} {s t : System} {e : Party}

theorem zero_notMem_appended (buffer : List UInt8) : 0 ∉ appended buffer := by
  intro h
  simpa using List.mem_takeWhile_imp h

theorem appended_eq {buffer : List UInt8} (h : 0 ∉ buffer) : appended buffer = buffer := by
  refine List.takeWhile_eq_self_iff.mpr fun b hb => ?_
  have hne : b ≠ 0 := fun h0 => h (h0 ▸ hb)
  simpa using hne

/-- The output is still to write, in the pipe or read, and nothing is read before the child has
exited. -/
def Parent.Inv (capacity : ℕ) (limit : ℤ) (output : List UInt8) (child : Status)
    (remaining pipe : List UInt8) : Parent → Prop
  | .starting => pipe = [] ∧ remaining = output ∧ child = .absent
  | .waiting timeout => timeout ≤ limit ∧ pipe ++ remaining = output
  | .sleeping timeout => 0 < timeout ∧ timeout ≤ limit ∧ pipe ++ remaining = output
  | .killing => pipe ++ remaining = output
  | .reading result => 0 < limit ∧ child = .exited ∧ output.length ≤ capacity ∧
      0 ∉ result ∧ (0 ∉ output → result ++ pipe = output)
  | .returned (.ok result) => 0 < limit ∧ output.length ≤ capacity ∧
      0 ∉ result ∧ (0 ∉ output → result = output)
  | .returned (.error _) => True

structure System.Inv (capacity : ℕ) (limit : ℤ) (output : List UInt8) (s : System) : Prop where
  fits : s.pipe.length ≤ capacity
  exited : s.child = .exited → s.remaining = []
  parent : s.parent.Inv capacity limit output s.child s.remaining s.pipe

/-- A child that runs may write or exit. -/
theorem Parent.Inv.child {parent : Parent} {child : Status}
    {remaining pipe remaining' pipe' : List UInt8}
    (h : parent.Inv capacity limit output .running remaining pipe)
    (hwritten : pipe' ++ remaining' = pipe ++ remaining) :
    parent.Inv capacity limit output child remaining' pipe' := by
  cases parent with
  | starting =>
    obtain ⟨-, -, habsent⟩ := h
    contradiction
  | waiting timeout => exact ⟨h.1, hwritten.trans h.2⟩
  | sleeping timeout => exact ⟨h.1, h.2.1, hwritten.trans h.2.2⟩
  | killing => exact hwritten.trans h
  | reading result =>
    obtain ⟨-, hexited, -⟩ := h
    contradiction
  | returned code =>
    cases code with
    | ok result => exact h
    | error text => trivial

theorem System.Inv.initial : (System.initial output).Inv capacity limit output where
  fits := Nat.zero_le _
  exited := fun _ => by contradiction
  parent := ⟨rfl, rfl, rfl⟩

theorem System.Inv.step (hs : s.Inv capacity limit output) (h : Step capacity limit s e t) :
    t.Inv capacity limit output := by
  obtain ⟨hfits, hexited, hparent⟩ := hs
  cases h with
  | @writes parent remaining pipe m _ hm hroom =>
    refine ⟨?_, fun h => by contradiction, hparent.child ?_⟩
    · rw [List.length_append, List.length_take_of_le hm]
      exact hroom
    · rw [List.append_assoc, List.take_append_drop]
  | exits => exact ⟨hfits, fun _ => rfl, hparent.child rfl⟩
  | denied => exact ⟨hfits, hexited, trivial⟩
  | notSpawned => exact ⟨hfits, hexited, trivial⟩
  | spawned =>
    obtain ⟨hpipe, hremaining, -⟩ := hparent
    dsimp only at hpipe hremaining
    exact ⟨hfits, fun h => by contradiction, Int.le_refl _, by rw [hpipe, hremaining]; rfl⟩
  | @reaps timeout remaining pipe htime =>
    obtain ⟨hlimit, hwritten⟩ := hparent
    obtain rfl : remaining = [] := hexited rfl
    have hpipe : pipe = output := (List.append_nil _).symm.trans hwritten
    exact ⟨hfits, hexited, by omega, rfl, hpipe ▸ hfits, List.not_mem_nil, fun _ => hpipe⟩
  | polls htime =>
    obtain ⟨hlimit, hwritten⟩ := hparent
    exact ⟨hfits, hexited, htime, hlimit, hwritten⟩
  | pollFails _ => exact ⟨hfits, hexited, hparent.2⟩
  | wakes =>
    obtain ⟨-, hlimit, hwritten⟩ := hparent
    exact ⟨hfits, hexited, by omega, hwritten⟩
  | expires _ => exact ⟨hfits, hexited, hparent.2⟩
  | @kills child remaining pipe =>
    refine ⟨hfits, fun h => hexited ?_, trivial⟩
    dsimp only at h
    split at h
    · contradiction
    · exact h
  | @reads child result remaining pipe m _ _ hm =>
    obtain ⟨hlimit, hchild, hlength, hzero, hread⟩ := hparent
    refine ⟨?_, hexited, hlimit, hchild, hlength, ?_, fun hnone => ?_⟩
    · rw [List.length_drop]
      exact (Nat.sub_le _ _).trans hfits
    · rw [List.mem_append, not_or]
      exact ⟨hzero, zero_notMem_appended _⟩
    · have hout := hread hnone
      have htake : 0 ∉ pipe.take m := by
        intro h0
        exact hnone (hout ▸ List.mem_append_right _ (List.mem_of_mem_take h0))
      rw [appended_eq htake, List.append_assoc, List.take_append_drop]
      exact hout
  | ends =>
    obtain ⟨hlimit, -, hlength, hzero, hread⟩ := hparent
    exact ⟨hfits, hexited, hlimit, hlength, hzero, fun hnone => by simpa using hread hnone⟩
  | readFails => exact ⟨hfits, hexited, trivial⟩

theorem inv_of_reachable (hr : Reachable (Step capacity limit) (.initial output) s) :
    s.Inv capacity limit output :=
  hr.invariant System.Inv.initial fun _ _ _ hs h => hs.step h

/-- Only a child whose output fits the pipe is ever read. -/
theorem returned_ok {result : List UInt8}
    (hr : Reachable (Step capacity limit) (.initial output) s)
    (hs : s.parent = .returned (.ok result)) :
    0 < limit ∧ output.length ≤ capacity ∧ 0 ∉ result ∧ (0 ∉ output → result = output) := by
  have hinv := (inv_of_reachable hr).parent
  rw [hs] at hinv
  exact hinv

/-- With an output that fits the pipe the child is not blocked while `timeout` waits or kills. -/
theorem not_blocked (hlength : output.length ≤ capacity)
    (hwritten : s.pipe ++ s.remaining = output) : ¬ s.Blocked capacity := by
  rintro ⟨-, hremaining, hfull⟩
  have hpos := List.length_pos_iff.mpr hremaining
  rw [← hwritten, List.length_append] at hlength
  omega

/-- The child may write so much as the pipe holds before `timeout` looks at it. -/
theorem reachable_written (limit : ℤ) {m : ℕ} (hm : m ≤ output.length) (hroom : m ≤ capacity) :
    Reachable (Step capacity limit) (.initial output)
      ⟨.waiting limit, .running, output.drop m, output.take m⟩ := by
  rcases Nat.eq_zero_or_pos m with rfl | hpos
  · exact ⟨_, .next .start .spawned⟩
  · exact ⟨_, .next (.next .start .spawned) (.writes hpos hm (by simpa using hroom))⟩

/-- What is in the pipe can be read to its end. -/
theorem reachable_returned {pipe result : List UInt8}
    (hr : Reachable (Step capacity limit) (.initial output) ⟨.reading result, .exited, [], pipe⟩) :
    ∃ result', Reachable (Step capacity limit) (.initial output)
      ⟨.returned (.ok result'), .exited, [], []⟩ := by
  induction pipe generalizing result with
  | nil =>
    obtain ⟨h, hr⟩ := hr
    exact ⟨result, _, .next hr .ends⟩
  | cons b pipe ih =>
    obtain ⟨h, hr⟩ := hr
    exact ih ⟨_, .next hr (.reads (m := 1) Nat.one_pos (by decide) (Nat.le_add_left _ _))⟩

theorem reachable_ok (hlimit : 0 < limit) (hlength : output.length ≤ capacity) :
    ∃ result, Reachable (Step capacity limit) (.initial output)
      ⟨.returned (.ok result), .exited, [], []⟩ := by
  obtain ⟨h, hr⟩ := reachable_written limit (Nat.le_refl output.length) hlength
  rw [List.drop_length] at hr
  exact reachable_returned ⟨_, .next (.next hr .exits) (.reaps hlimit)⟩

/-- A child with more output than the pipe holds is blocked before the time limit. -/
theorem not_progresses (hlimit : 0 < limit) (hlength : capacity < output.length) :
    ¬ Progresses capacity limit output := by
  intro h
  have hr := reachable_written limit hlength.le (Nat.le_refl capacity)
  refine h.unblocked _ hr hlimit ⟨rfl, ?_, ?_⟩
  · rw [Ne, List.drop_eq_nil_iff, Nat.not_le]
    exact hlength
  · rw [List.length_take_of_le hlength.le]

theorem fits_of_progresses (hlimit : 0 < limit) (h : Progresses capacity limit output) :
    output.length ≤ capacity ∧ 0 ∉ output := by
  have hlength : output.length ≤ capacity := by
    by_contra hlength
    exact not_progresses hlimit (Nat.not_le.mp hlength) h
  refine ⟨hlength, fun hzero => ?_⟩
  -- all of the output is read, but what is read has no zero byte
  obtain ⟨result, hr⟩ := reachable_ok hlimit hlength
  obtain ⟨-, -, hnone, -⟩ := returned_ok hr rfl
  exact hnone (h.whole _ _ hr rfl ▸ hzero)

theorem unblocked_of_fits (hfits : 0 < limit → output.length ≤ capacity)
    (hr : Reachable (Step capacity limit) (.initial output) s) (htime : s.parent.InTime) :
    ¬ s.Blocked capacity := by
  have hinv := (inv_of_reachable hr).parent
  obtain ⟨parent, child, remaining, pipe⟩ := s
  cases parent with
  | starting =>
    rintro ⟨hrunning, -, -⟩
    exact absurd (hinv.2.2.symm.trans hrunning) (by decide)
  | waiting timeout =>
    have hpos : 0 < timeout := htime
    obtain ⟨hle, hwritten⟩ := hinv
    exact not_blocked (hfits (by omega)) hwritten
  | sleeping timeout =>
    obtain ⟨hpos, hle, hwritten⟩ := hinv
    exact not_blocked (hfits (by omega)) hwritten
  | killing => cases htime
  | reading result =>
    rintro ⟨hrunning, -, -⟩
    exact absurd (hinv.2.1.symm.trans hrunning) (by decide)
  | returned code => cases htime

/-- The command makes progress if and only if it does not wait at all, or the output fits the
pipe and has no zero byte. -/
theorem progresses_iff (capacity : ℕ) (limit : ℤ) (output : List UInt8) :
    Progresses capacity limit output ↔
      limit ≤ 0 ∨ output.length ≤ capacity ∧ 0 ∉ output := by
  constructor
  · intro h
    rcases Int.lt_or_le 0 limit with hlimit | hlimit
    · exact .inr (fits_of_progresses hlimit h)
    · exact .inl hlimit
  · intro hcond
    have hfits : 0 < limit → output.length ≤ capacity ∧ 0 ∉ output :=
      fun hlimit => hcond.resolve_left (Int.not_le.mpr hlimit)
    refine ⟨fun s hr htime => unblocked_of_fits (fun hlimit => (hfits hlimit).1) hr htime,
      fun s hr hlimit hkilling => ?_, fun s result hr hs => ?_⟩
    · have hinv := (inv_of_reachable hr).parent
      rw [hkilling] at hinv
      exact not_blocked (hfits hlimit).1 hinv
    · obtain ⟨hlimit, -, -, hwhole⟩ := returned_ok hr hs
      exact hwhole (hfits hlimit).2

/-- A pipe holds 65536 bytes; a child that writes one more is blocked within a limit of 20
seconds. -/
theorem long_not_progresses : ¬ Progresses 65536 20 (List.replicate 65537 97) :=
  not_progresses (by decide) (by rw [List.length_replicate]; decide)

end Redx.Process
