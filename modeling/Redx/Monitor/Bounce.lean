import Redx.Library.Run
import Mathlib.Data.Int.Basic
import Mathlib.Tactic.SplitIfs

/-!
# How often a link is bounced

A link that is down is taken down and brought up again, but not before an interval has passed
since the last time, and after some attempts only when a longer one may have passed.
`bounce_expired` forgets the attempts although the bounce may be skipped afterwards.
-/
namespace Redx.Monitor
open Library

structure BounceLimits where
  interval : ℤ
  attempts : ℕ
  reattempt : ℤ

/-- `link_bounce_interval`, `link_bounce_attempts` and `link_bounce_reattempt`. -/
def linkBounce : BounceLimits := ⟨1200, 2, 1200⟩

/-- The members of an `Interface` that remember its bounces. -/
structure BounceState where
  lastBounce : ℤ
  bounceAttempts : ℕ
  lastBounceReattempt : ℤ

/-- `bounce_expired` at a time. -/
def bounceExpired (limits : BounceLimits) (s : BounceState) (now : ℤ) : Bool × BounceState :=
  if limits.attempts ≤ s.bounceAttempts then
    let delta := now - s.lastBounceReattempt
    if limits.reattempt ≤ delta then (true, { s with bounceAttempts := 0 })
    else (false, s)
  else
    let delta := now - s.lastBounce
    (limits.interval ≤ delta, s)

/-- `bounce_link` with the times that it stores, and whether the link was bounced. -/
def bounceLink (limits : BounceLimits) (s : BounceState) (quiesced : Bool)
    (bounced reattempted : ℤ) : Bool × BounceState :=
  if quiesced then (false, s)
  else
    let s := { s with lastBounce := bounced, bounceAttempts := s.bounceAttempts + 1 }
    if limits.attempts ≤ s.bounceAttempts then
      (true, { s with lastBounceReattempt := reattempted })
    else (true, s)

/-- A `NewLink` for an interface that is known: what the interface answers, and what the clock
shows in `bounce_expired` and at the two places in `bounce_link`. -/
structure LinkEvent where
  hasLink : Bool
  isPhysical : Bool
  hasFaultInjected : Bool
  isQuiesced : Bool
  now : ℤ
  bounced : ℤ
  reattempted : ℤ

/-- The repair in `receive(NewLink)`, and whether the link was bounced. -/
def repairLink (limits : BounceLimits) (s : BounceState) (e : LinkEvent) : Bool × BounceState :=
  if e.hasLink then (false, s)
  else
    let r := bounceExpired limits s e.now
    if r.1 && e.isPhysical && !e.hasFaultInjected then
      bounceLink limits r.2 e.isQuiesced e.bounced e.reattempted
    else (false, r.2)

/-- A bounce was decided at its start; its end is the time that was stored. -/
structure Bounce where
  start : ℤ
  done : ℤ

/-- An interface with the time of its last event and the bounces so far. -/
structure Link extends BounceState where
  clock : ℤ
  bounces : List Bounce

def Link.initial (clock : ℤ) : Link := ⟨⟨0, 0, 0⟩, clock, []⟩

/-- The interface after an event. -/
def Link.receive (limits : BounceLimits) (s : Link) (e : LinkEvent) : Link :=
  let r := repairLink limits s.toBounceState e
  if r.1 then ⟨r.2, e.reattempted, s.bounces ++ [⟨e.now, e.bounced⟩]⟩
  else ⟨r.2, e.now, s.bounces⟩

/-- The clock does not go back. -/
inductive LinkStep (limits : BounceLimits) : Link → LinkEvent → Link → Prop
  | receive {s : Link} {e : LinkEvent} : s.clock ≤ e.now → e.now ≤ e.bounced →
      e.bounced ≤ e.reattempted → LinkStep limits s e (s.receive limits e)

/-- The attempts count the bounces in rounds of `limits.attempts`; the link rests after a round,
as long as the attempts are at their limit or, when they have been forgotten, already has. -/
structure Spaced (limits : BounceLimits) (s : Link) : Prop where
  attempts_le : s.bounceAttempts ≤ limits.attempts
  length_mod : s.bounces.length % limits.attempts = s.bounceAttempts % limits.attempts
  done_le : ∀ b ∈ s.bounces, b.done ≤ s.lastBounce
  limit : s.bounceAttempts = limits.attempts → s.lastBounce ≤ s.lastBounceReattempt
  rested : s.bounceAttempts = 0 → ∀ b ∈ s.bounces, b.done + limits.reattempt ≤ s.clock
  apart : s.bounces.Pairwise fun a b => a.done + limits.interval ≤ b.start
  rounds : ∀ k, ∀ h : k + 1 < s.bounces.length, (k + 1) % limits.attempts = 0 →
    s.bounces[k].done + limits.reattempt ≤ s.bounces[k + 1].start

theorem Spaced.initial (limits : BounceLimits) (clock : ℤ) :
    Spaced limits (Link.initial clock) where
  attempts_le := Nat.zero_le _
  length_mod := rfl
  done_le _ hb := absurd hb List.not_mem_nil
  limit _ := Int.le_refl 0
  rested _ _ hb := absurd hb List.not_mem_nil
  apart := List.Pairwise.nil
  rounds _ h := absurd h (Nat.not_lt_zero _)

variable {limits : BounceLimits} {s : Link} {now : ℤ}

theorem bounceExpired_cases (limits : BounceLimits) (s : BounceState) (now : ℤ) :
    (limits.attempts ≤ s.bounceAttempts ∧ limits.reattempt ≤ now - s.lastBounceReattempt ∧
      bounceExpired limits s now = (true, { s with bounceAttempts := 0 })) ∨
    (limits.attempts ≤ s.bounceAttempts ∧ bounceExpired limits s now = (false, s)) ∨
    (s.bounceAttempts < limits.attempts ∧
      bounceExpired limits s now = (decide (limits.interval ≤ now - s.lastBounce), s)) := by
  rw [bounceExpired]
  by_cases hattempts : limits.attempts ≤ s.bounceAttempts
  · rw [if_pos hattempts]
    by_cases hdelta : limits.reattempt ≤ now - s.lastBounceReattempt
    · exact .inl ⟨hattempts, hdelta, if_pos hdelta⟩
    · exact .inr (.inl ⟨hattempts, if_neg hdelta⟩)
  · rw [if_neg hattempts]
    exact .inr (.inr ⟨Nat.lt_of_not_le hattempts, rfl⟩)

theorem bounceLink_eq (limits : BounceLimits) (s : BounceState) (bounced reattempted : ℤ) :
    bounceLink limits s false bounced reattempted = (true, ⟨bounced, s.bounceAttempts + 1,
      if limits.attempts ≤ s.bounceAttempts + 1 then reattempted else s.lastBounceReattempt⟩) := by
  rw [bounceLink, if_neg nofun]
  dsimp only
  split_ifs <;> rfl

/-- Waiting keeps everything. -/
theorem Spaced.wait (h : Spaced limits s) (hnow : s.clock ≤ now) :
    Spaced limits { s with clock := now } :=
  { h with
    rested := fun h0 b hb => Int.le_trans (h.rested h0 b hb) hnow }

/-- At its limit of attempts, a link that may be bounced again has rested. -/
theorem Spaced.rested_of_limit (h : Spaced limits s) (hlimit : limits.attempts ≤ s.bounceAttempts)
    (hdelta : limits.reattempt ≤ now - s.lastBounceReattempt) :
    ∀ b ∈ s.bounces, b.done + limits.reattempt ≤ now := by
  intro b hb
  have hdone := h.done_le b hb
  have hlast := h.limit (Nat.le_antisymm h.attempts_le hlimit)
  omega

/-- `bounce_expired` keeps everything: it forgets the attempts only when the link has rested. -/
theorem Spaced.expired (h : Spaced limits s) (hpos : 0 < limits.attempts) (hnow : s.clock ≤ now) :
    Spaced limits ⟨(bounceExpired limits s.toBounceState now).2, now, s.bounces⟩ := by
  have hwait := h.wait hnow
  rcases bounceExpired_cases limits s.toBounceState now with ⟨hlimit, hdelta, heq⟩ | ⟨-, heq⟩ |
    ⟨-, heq⟩
  · have hrested := h.rested_of_limit hlimit hdelta
    have hmod := h.length_mod
    rw [Nat.le_antisymm h.attempts_le hlimit, Nat.mod_self] at hmod
    rw [heq]
    exact { hwait with
      attempts_le := Nat.zero_le _
      length_mod := hmod.trans (Nat.zero_mod _).symm
      limit := fun h0 => absurd h0 (Nat.ne_of_lt hpos)
      rested := fun _ => hrested }
  · rw [heq]
    exact hwait
  · rw [heq]
    exact hwait

/-- When `bounce_expired` returns true the interval has passed since every bounce, there is an
attempt left, and at the end of a round the link has rested. -/
theorem Spaced.of_expired (h : Spaced limits s) (hpos : 0 < limits.attempts)
    (hle : limits.interval ≤ limits.reattempt) (hnow : s.clock ≤ now)
    (htrue : (bounceExpired limits s.toBounceState now).1 = true) :
    (∀ b ∈ s.bounces, b.done + limits.interval ≤ now) ∧
    (bounceExpired limits s.toBounceState now).2.bounceAttempts < limits.attempts ∧
    (s.bounces.length % limits.attempts = 0 →
      ∀ b ∈ s.bounces, b.done + limits.reattempt ≤ now) := by
  rcases bounceExpired_cases limits s.toBounceState now with ⟨hlimit, hdelta, heq⟩ | ⟨-, heq⟩ |
    ⟨hlt, heq⟩
  · have hrested := h.rested_of_limit hlimit hdelta
    rw [heq]
    refine ⟨fun b hb => ?_, hpos, fun _ => hrested⟩
    have := hrested b hb
    omega
  · rw [heq] at htrue
    cases htrue
  · rw [heq] at htrue ⊢
    have hdelta := of_decide_eq_true htrue
    refine ⟨fun b hb => ?_, hlt, fun hround b hb => ?_⟩
    · have := h.done_le b hb
      omega
    · have hzero : s.bounceAttempts = 0 := by
        rw [h.length_mod, Nat.mod_eq_of_lt hlt] at hround
        exact hround
      exact Int.le_trans (h.rested hzero b hb) hnow

/-- A bounce keeps the spacing when the times since the others allow it. -/
theorem Spaced.bounce (h : Spaced limits s) (hinterval : 0 ≤ limits.interval)
    (hlt : s.bounceAttempts < limits.attempts) {e : LinkEvent}
    (hbounced : e.now ≤ e.bounced) (hreattempted : e.bounced ≤ e.reattempted)
    (happart : ∀ b ∈ s.bounces, b.done + limits.interval ≤ e.now)
    (hround : s.bounces.length % limits.attempts = 0 →
      ∀ b ∈ s.bounces, b.done + limits.reattempt ≤ e.now) :
    Spaced limits ⟨(bounceLink limits s.toBounceState false e.bounced e.reattempted).2,
      e.reattempted, s.bounces ++ [⟨e.now, e.bounced⟩]⟩ := by
  rw [bounceLink_eq]
  refine ⟨hlt, ?_, ?_, ?_, fun h0 => absurd h0 (Nat.succ_ne_zero _), ?_, ?_⟩
  · change (s.bounces ++ _).length % _ = (s.bounceAttempts + 1) % _
    rw [List.length_append, List.length_singleton, Nat.add_mod, h.length_mod, ← Nat.add_mod]
  · intro b hb
    rcases List.mem_append.mp hb with hb | hb
    · have := happart b hb
      change b.done ≤ e.bounced
      omega
    · exact Int.le_of_eq (congrArg Bounce.done (List.mem_singleton.mp hb))
  · intro hlimit
    change e.bounced ≤ if limits.attempts ≤ s.bounceAttempts + 1 then _ else _
    rw [if_pos (Nat.le_of_eq hlimit.symm)]
    exact hreattempted
  · refine List.pairwise_append.mpr ⟨h.apart, List.pairwise_singleton _ _, ?_⟩
    intro b hb b' hb'
    rw [List.mem_singleton.mp hb']
    exact happart b hb
  · intro k hk hmod
    change k + 1 < (s.bounces ++ _).length at hk
    rw [List.length_append, List.length_singleton] at hk
    change (s.bounces ++ _)[k].done + _ ≤ (s.bounces ++ _)[k + 1].start
    by_cases hlast : k + 1 < s.bounces.length
    · rw [List.getElem_append_left (by omega), List.getElem_append_left hlast]
      exact h.rounds k hlast hmod
    · have hlength : k + 1 = s.bounces.length := by omega
      rw [hlength] at hmod
      rw [List.getElem_append_left (by omega), List.getElem_append_right (by omega)]
      simp only [List.getElem_singleton]
      exact hround hmod _ (List.getElem_mem _)

/-- The steps keep the spacing, whatever the interface answers and whenever they are taken. -/
theorem Spaced.receive (h : Spaced limits s) (hpos : 0 < limits.attempts)
    (hinterval : 0 ≤ limits.interval) (hle : limits.interval ≤ limits.reattempt) {e : LinkEvent}
    (hnow : s.clock ≤ e.now) (hbounced : e.now ≤ e.bounced)
    (hreattempted : e.bounced ≤ e.reattempted) : Spaced limits (s.receive limits e) := by
  rw [Link.receive, repairLink]
  by_cases hlink : e.hasLink = true
  · rw [if_pos hlink]
    exact h.wait hnow
  · rw [if_neg hlink]
    have hexpired := h.expired hpos hnow
    by_cases hrepair : ((bounceExpired limits s.toBounceState e.now).1 && e.isPhysical &&
        !e.hasFaultInjected) = true
    · rw [if_pos hrepair]
      cases hquiesced : e.isQuiesced with
      | true => exact hexpired
      | false =>
        have htrue := (Bool.and_eq_true_iff.mp (Bool.and_eq_true_iff.mp hrepair).1).1
        obtain ⟨hapart, hlt, hround⟩ := h.of_expired hpos hle hnow htrue
        rw [if_pos (congrArg Prod.fst (bounceLink_eq ..))]
        exact hexpired.bounce hinterval hlt hbounced hreattempted hapart hround
    · rw [if_neg hrepair]
      exact hexpired

theorem Spaced.reachable (hpos : 0 < limits.attempts) (hinterval : 0 ≤ limits.interval)
    (hle : limits.interval ≤ limits.reattempt) {clock : ℤ}
    (h : Reachable (LinkStep limits) (Link.initial clock) s) : Spaced limits s := by
  refine h.invariant (.initial limits clock) ?_
  intro s e t hs hstep
  obtain ⟨hnow, hbounced, hreattempted⟩ := hstep
  exact hs.receive hpos hinterval hle hnow hbounced hreattempted

theorem Link.reachable_receive {clock : ℤ} (e : LinkEvent)
    (h : Reachable (LinkStep limits) (.initial clock) s) (hnow : s.clock ≤ e.now)
    (hbounced : e.now ≤ e.bounced) (hreattempted : e.bounced ≤ e.reattempted) :
    Reachable (LinkStep limits) (.initial clock) (s.receive limits e) := by
  obtain ⟨history, hrun⟩ := h
  exact ⟨_, hrun.next (.receive hnow hbounced hreattempted)⟩

/-- In every run the link rests for `link_bounce_interval` between any two bounces, and for
`link_bounce_reattempt` after each `link_bounce_attempts`-th one. -/
theorem bounce_rate_limited {clock : ℤ} {s : Link}
    (h : Reachable (LinkStep linkBounce) (.initial clock) s) :
    (∀ i j : ℕ, i < j → ∀ a b : Bounce, s.bounces[i]? = some a → s.bounces[j]? = some b →
      a.done + linkBounce.interval ≤ b.start) ∧
    ∀ k, (k + 1) % linkBounce.attempts = 0 →
      ∀ a b : Bounce, s.bounces[k]? = some a → s.bounces[k + 1]? = some b →
        a.done + linkBounce.reattempt ≤ b.start := by
  have hspaced : Spaced linkBounce s := .reachable (by decide) (by decide) (by decide) h
  constructor
  · intro i j hij a b ha hb
    obtain ⟨hi, rfl⟩ := List.getElem?_eq_some_iff.mp ha
    obtain ⟨hj, rfl⟩ := List.getElem?_eq_some_iff.mp hb
    exact List.pairwise_iff_getElem.mp hspaced.apart i j hi hj hij
  · intro k hk a b ha hb
    obtain ⟨-, rfl⟩ := List.getElem?_eq_some_iff.mp ha
    obtain ⟨hlt, rfl⟩ := List.getElem?_eq_some_iff.mp hb
    exact hspaced.rounds k hlt hk

/-- A link stays down; a fault is injected during the second of four events. -/
theorem bounce_rate_limited_down :
    ∃ s, Reachable (LinkStep linkBounce) (.initial 0) s ∧
      s.bounces = [⟨1200, 1201⟩, ⟨2600, 2602⟩, ⟨3900, 3901⟩] ∧
      (2602 : ℤ) + linkBounce.reattempt ≤ 3900 := by
  have h₀ : Reachable (LinkStep linkBounce) (.initial 0) (.initial 0) := ⟨_, .start⟩
  have h₁ := Link.reachable_receive ⟨false, true, false, false, 1200, 1201, 1201⟩ h₀
    (by decide) (by decide) (by decide)
  have h₂ := Link.reachable_receive ⟨false, true, true, false, 2500, 2500, 2500⟩ h₁
    (by decide) (by decide) (by decide)
  have h₃ := Link.reachable_receive ⟨false, true, false, false, 2600, 2602, 2603⟩ h₂
    (by decide) (by decide) (by decide)
  have h₄ := Link.reachable_receive ⟨false, true, false, false, 3900, 3901, 3901⟩ h₃
    (by decide) (by decide) (by decide)
  exact ⟨_, h₄, rfl, (bounce_rate_limited h₄).2 1 rfl _ _ rfl rfl⟩

end Redx.Monitor
