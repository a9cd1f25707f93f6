import Redx.Library.Run
import Mathlib.Data.Finset.Basic

/-!
# Commands with a time limit in several threads

`spawn_child` makes a pipe, forks and closes the end for writing. In between the end is open in the
process, and a child that another thread forks there inherits it, in `timeout` or in the `shell` of
the network monitor. `timeout` reads up to the end of the pipe, which comes when no process has the
end for writing open. The commands leave no process of their own behind.
-/
namespace Redx.Process.Inherit
open Library

/-- Where a thread is: in the `system` of `shell`, or in `timeout`, that is in `spawn_child` up to
the `close`, then in `wait_for_child`, and in the loop that reads. -/
inductive Caller where
  | idle
  | shell (child : ℕ)
  | piped (pipe : ℕ)
  | forked (pipe child : ℕ)
  | waiting (pipe child : ℕ)
  | reading (pipe child : ℕ)
  deriving DecidableEq, Repr

/-- A child, and the pipes that it has open for writing. -/
structure Child where
  running : Bool
  ends : Finset ℕ

/-- The threads, the pipes that their process has open for writing, and the children. Pipes and
children are numbered in their order. -/
structure State (T : Type*) where
  caller : T → Caller
  ends : Finset ℕ
  child : ℕ → Option Child
  pipes : ℕ
  children : ℕ

def State.start (T : Type*) : State T := ⟨fun _ => .idle, ∅, fun _ => none, 0, 0⟩

inductive Event (T : Type*) where
  | shell (t : T)
  | shellReturns (t : T)
  | pipe (t : T)
  | fork (t : T)
  | forkFails (t : T)
  | close (t : T)
  | drops (c : ℕ)
  | exits (c : ℕ)
  | reaps (t : T)
  | expires (t : T)
  | returns (t : T)

variable {T : Type*} [DecidableEq T]

/-- No process has the pipe open for writing: `read` comes to its end. -/
def State.Ended (s : State T) (pipe : ℕ) : Prop :=
  pipe ∉ s.ends ∧ ∀ c child, s.child c = some child → pipe ∉ child.ends

/-- The system calls of the threads, and what a child does with the ends that it has inherited: it
keeps them or closes some, and all are closed when it exits or is killed. -/
inductive Step : State T → Event T → State T → Prop
  | shell {s : State T} {t : T} : s.caller t = .idle →
      Step s (.shell t) { s with
        caller := Function.update s.caller t (.shell s.children)
        child := Function.update s.child s.children (some ⟨true, s.ends⟩)
        children := s.children + 1 }
  | shellReturns {s : State T} {t : T} {c : ℕ} {ends : Finset ℕ} : s.caller t = .shell c →
      s.child c = some ⟨false, ends⟩ →
      Step s (.shellReturns t) { s with caller := Function.update s.caller t .idle }
  | pipe {s : State T} {t : T} : s.caller t = .idle →
      Step s (.pipe t) { s with
        caller := Function.update s.caller t (.piped s.pipes)
        ends := insert s.pipes s.ends
        pipes := s.pipes + 1 }
  | fork {s : State T} {t : T} {pipe : ℕ} : s.caller t = .piped pipe →
      Step s (.fork t) { s with
        caller := Function.update s.caller t (.forked pipe s.children)
        child := Function.update s.child s.children (some ⟨true, s.ends⟩)
        children := s.children + 1 }
  | forkFails {s : State T} {t : T} {pipe : ℕ} : s.caller t = .piped pipe →
      Step s (.forkFails t) { s with
        caller := Function.update s.caller t .idle
        ends := s.ends.erase pipe }
  | close {s : State T} {t : T} {pipe c : ℕ} : s.caller t = .forked pipe c →
      Step s (.close t) { s with
        caller := Function.update s.caller t (.waiting pipe c)
        ends := s.ends.erase pipe }
  | drops {s : State T} {c : ℕ} {ends ends' : Finset ℕ} : s.child c = some ⟨true, ends⟩ →
      ends' ⊆ ends →
      Step s (.drops c) { s with child := Function.update s.child c (some ⟨true, ends'⟩) }
  | exits {s : State T} {c : ℕ} {ends : Finset ℕ} : s.child c = some ⟨true, ends⟩ →
      Step s (.exits c) { s with child := Function.update s.child c (some ⟨false, ∅⟩) }
  | reaps {s : State T} {t : T} {pipe c : ℕ} {ends : Finset ℕ} :
      s.caller t = .waiting pipe c → s.child c = some ⟨false, ends⟩ →
      Step s (.reaps t) { s with caller := Function.update s.caller t (.reading pipe c) }
  | expires {s : State T} {t : T} {pipe c : ℕ} {child : Child} :
      s.caller t = .waiting pipe c → s.child c = some child →
      Step s (.expires t) { s with
        caller := Function.update s.caller t .idle
        child := Function.update s.child c (some ⟨false, ∅⟩) }
  | returns {s : State T} {t : T} {pipe c : ℕ} : s.caller t = .reading pipe c →
      s.Ended pipe → Step s (.returns t) { s with caller := Function.update s.caller t .idle }

/-- A thread that reads comes to the end of its pipe, whatever the other threads and children do
or do not do. -/
def State.Prompt (s : State T) : Prop :=
  ∀ t pipe c, s.caller t = .reading pipe c → s.Ended pipe

/-- Of the pipes of the calls, only the child of a call has the end of its pipe; a new one has no
child. -/
def State.Own (s : State T) : Caller → Prop
  | .idle => True
  | .shell _ => True
  | .piped pipe => ∀ c child, s.child c = some child → pipe ∉ child.ends
  | .forked pipe c => ∀ c' child, s.child c' = some child → pipe ∈ child.ends → c' = c
  | .waiting pipe c =>
    pipe ∉ s.ends ∧ ∀ c' child, s.child c' = some child → pipe ∈ child.ends → c' = c
  | .reading pipe _ => s.Ended pipe

/-- What holds with one thread: the process has only the pipe open that the thread is about to
close. -/
structure State.Inv (s : State T) : Prop where
  pending : ∀ pipe ∈ s.ends, ∃ t, s.caller t = .piped pipe ∨ ∃ c, s.caller t = .forked pipe c
  fresh : ∀ pipe ∈ s.ends, pipe < s.pipes
  inherited : ∀ c child, s.child c = some child →
    c < s.children ∧ ∀ pipe ∈ child.ends, pipe < s.pipes
  closed : ∀ c ends, s.child c = some ⟨false, ends⟩ → ends = ∅
  own : ∀ t, s.Own (s.caller t)

variable {s u : State T} {e : Event T}

omit [DecidableEq T] in
theorem inv_start : (State.start T).Inv where
  pending _ h := absurd h (Finset.notMem_empty _)
  fresh _ h := absurd h (Finset.notMem_empty _)
  inherited _ _ h := by cases h
  closed _ _ h := by cases h
  own _ := trivial

omit [DecidableEq T] in
/-- Where ends are closed and none is opened, each pipe stays with its own child. -/
theorem State.Own.mono {k : Caller} (h : s.Own k) (hends : ∀ pipe ∈ u.ends, pipe ∈ s.ends)
    (hchild : ∀ c child, u.child c = some child → ∀ pipe ∈ child.ends,
      ∃ child', s.child c = some child' ∧ pipe ∈ child'.ends) : u.Own k := by
  cases k with
  | idle => trivial
  | shell c => trivial
  | piped pipe =>
    intro c child hc hmem
    obtain ⟨child', hc', hmem'⟩ := hchild c child hc pipe hmem
    exact h c child' hc' hmem'
  | forked pipe c =>
    intro c' child hc hmem
    obtain ⟨child', hc', hmem'⟩ := hchild c' child hc pipe hmem
    exact h c' child' hc' hmem'
  | waiting pipe c =>
    refine ⟨fun hmem => h.1 (hends pipe hmem), fun c' child hc hmem => ?_⟩
    obtain ⟨child', hc', hmem'⟩ := hchild c' child hc pipe hmem
    exact h.2 c' child' hc' hmem'
  | reading pipe c =>
    refine ⟨fun hmem => h.1 (hends pipe hmem), fun c' child hc hmem => ?_⟩
    obtain ⟨child', hc', hmem'⟩ := hchild c' child hc pipe hmem
    exact h.2 c' child' hc' hmem'

omit [DecidableEq T] in
/-- A child that closes some of its ends, or all of them. -/
theorem State.Inv.setChild (h : s.Inv) {c : ℕ} {child child' : Child}
    (hc : s.child c = some child) (hends : child'.ends ⊆ child.ends)
    (hclosed : child'.running = false → child'.ends = ∅) :
    ({ s with child := Function.update s.child c (some child') } : State T).Inv := by
  have hchild : ∀ c' child₀, Function.update s.child c (some child') c' = some child₀ →
      ∀ pipe ∈ child₀.ends, ∃ child₁, s.child c' = some child₁ ∧ pipe ∈ child₁.ends := by
    intro c' child₀ hc' pipe hmem
    by_cases hcc : c' = c
    · subst hcc
      rw [Function.update_self, Option.some.injEq] at hc'
      subst hc'
      exact ⟨child, hc, hends hmem⟩
    · rw [Function.update_of_ne hcc] at hc'
      exact ⟨child₀, hc', hmem⟩
  refine ⟨h.pending, h.fresh, fun c' child₀ hc' => ⟨?_, fun pipe hmem => ?_⟩,
    fun c' ends hc' => ?_, fun t => (h.own t).mono (fun _ hp => hp) hchild⟩
  · by_cases hcc : c' = c
    · subst hcc
      exact (h.inherited _ child hc).1
    · dsimp only at hc'
      rw [Function.update_of_ne hcc] at hc'
      exact (h.inherited _ child₀ hc').1
  · obtain ⟨child₁, hc₁, hmem₁⟩ := hchild c' child₀ hc' pipe hmem
    exact (h.inherited c' child₁ hc₁).2 pipe hmem₁
  · dsimp only at hc'
    by_cases hcc : c' = c
    · subst hcc
      rw [Function.update_self, Option.some.injEq] at hc'
      subst hc'
      exact hclosed rfl
    · rw [Function.update_of_ne hcc] at hc'
      exact h.closed c' ends hc'

omit [DecidableEq T] in
/-- The child that a fork at `s` adds has the ends of the process. -/
theorem child_spawn {c : ℕ} {child : Child}
    (hc : Function.update s.child s.children (some ⟨true, s.ends⟩) c = some child) :
    c = s.children ∧ child = ⟨true, s.ends⟩ ∨ s.child c = some child := by
  by_cases hcc : c = s.children
  · subst hcc
    rw [Function.update_self, Option.some.injEq] at hc
    exact .inl ⟨rfl, hc.symm⟩
  · rw [Function.update_of_ne hcc] at hc
    exact .inr hc

section One

variable [Subsingleton T] {t : T} {k : Caller}

theorem update_caller (f : T → Caller) (t t' : T) (k : Caller) : Function.update f t k t' = k := by
  rw [Subsingleton.elim t' t, Function.update_self]

omit [DecidableEq T] in
/-- The pipe that the process has open is the one of the thread. -/
theorem State.Inv.pending_eq (h : s.Inv) {pipe : ℕ} (hmem : pipe ∈ s.ends) (t : T) :
    s.caller t = .piped pipe ∨ ∃ c, s.caller t = .forked pipe c := by
  obtain ⟨t', ht'⟩ := h.pending pipe hmem
  rwa [Subsingleton.elim t t']

/-- The thread goes on, and the ends of its process stay or one is closed. -/
theorem State.Inv.setCaller (h : s.Inv) {ends : Finset ℕ} (hsub : ends ⊆ s.ends)
    (hpending : ∀ pipe ∈ ends, k = .piped pipe ∨ ∃ c, k = .forked pipe c)
    (hown : ({ s with ends := ends } : State T).Own k) :
    ({ s with caller := Function.update s.caller t k, ends := ends } : State T).Inv where
  pending pipe hmem := ⟨t, by dsimp only; rw [Function.update_self]; exact hpending pipe hmem⟩
  fresh pipe hmem := h.fresh pipe (hsub hmem)
  inherited := h.inherited
  closed := h.closed
  own t' := by
    dsimp only
    rw [update_caller]
    exact hown.mono (fun _ hp => hp) fun _ child hc pipe hmem => ⟨child, hc, hmem⟩

/-- The thread forks a child. -/
theorem State.Inv.spawn (h : s.Inv)
    (hpending : ∀ pipe ∈ s.ends, k = .piped pipe ∨ ∃ c, k = .forked pipe c)
    (hown : ({ s with child := Function.update s.child s.children (some ⟨true, s.ends⟩) } :
      State T).Own k) :
    ({ s with
        caller := Function.update s.caller t k
        child := Function.update s.child s.children (some ⟨true, s.ends⟩)
        children := s.children + 1 } : State T).Inv where
  pending pipe hmem := ⟨t, by dsimp only; rw [Function.update_self]; exact hpending pipe hmem⟩
  fresh := h.fresh
  inherited c child hc := by
    rcases child_spawn hc with ⟨rfl, rfl⟩ | hc
    · exact ⟨Nat.lt_succ_self _, h.fresh⟩
    · obtain ⟨hlt, hpipes⟩ := h.inherited c child hc
      exact ⟨Nat.lt_succ_of_lt hlt, hpipes⟩
  closed c ends hc := by
    rcases child_spawn hc with ⟨-, heq⟩ | hc
    · cases heq
    · exact h.closed c ends hc
  own t' := by
    dsimp only
    rw [update_caller]
    exact hown.mono (fun _ hp => hp) fun _ child hc pipe hmem => ⟨child, hc, hmem⟩

omit [DecidableEq T] in
/-- Outside `spawn_child` the process has no end for writing open. -/
theorem State.Inv.ends_eq (h : s.Inv) (hpiped : ∀ pipe, s.caller t ≠ .piped pipe)
    (hforked : ∀ pipe c, s.caller t ≠ .forked pipe c) : s.ends = ∅ := by
  refine Finset.eq_empty_of_forall_notMem fun pipe hmem => ?_
  rcases h.pending_eq hmem t with hp | ⟨c, hp⟩
  · exact hpiped pipe hp
  · exact hforked pipe c hp

theorem Step.inv (h : s.Inv) (hs : Step s e u) : u.Inv := by
  cases hs with
  | @shell t ht =>
    have hnone : s.ends = ∅ := h.ends_eq (t := t) (by simp [ht]) (by simp [ht])
    refine h.spawn (fun pipe hmem => ?_) trivial
    rw [hnone] at hmem
    exact absurd hmem (Finset.notMem_empty _)
  | @shellReturns t c ends ht hc =>
    have hnone : s.ends = ∅ := h.ends_eq (t := t) (by simp [ht]) (by simp [ht])
    refine h.setCaller (Finset.Subset.refl _) (fun pipe hmem => ?_) trivial
    rw [hnone] at hmem
    exact absurd hmem (Finset.notMem_empty _)
  | @pipe t ht =>
    have hnone : s.ends = ∅ := h.ends_eq (t := t) (by simp [ht]) (by simp [ht])
    refine ⟨fun pipe hmem => ⟨t, .inl ?_⟩, fun pipe hmem => ?_, fun c child hc => ?_, h.closed,
      fun t' => ?_⟩
    · rcases Finset.mem_insert.mp hmem with rfl | hmem
      · exact Function.update_self ..
      · exact absurd (hnone ▸ hmem) (Finset.notMem_empty _)
    · rcases Finset.mem_insert.mp hmem with rfl | hmem
      · exact Nat.lt_succ_self _
      · exact absurd (hnone ▸ hmem) (Finset.notMem_empty _)
    · obtain ⟨hlt, hpipes⟩ := h.inherited c child hc
      exact ⟨hlt, fun pipe hmem => Nat.lt_succ_of_lt (hpipes pipe hmem)⟩
    · dsimp only
      rw [update_caller]
      exact fun c child hc hmem => absurd ((h.inherited c child hc).2 _ hmem) (lt_irrefl _)
  | @fork t pipe ht =>
    have hown : s.Own (.piped pipe) := ht ▸ h.own t
    refine h.spawn (fun pipe' hmem => ?_) fun c child hc hmem => ?_
    · rcases h.pending_eq hmem t with hp | ⟨c, hp⟩
      · rw [ht, Caller.piped.injEq] at hp
        exact .inr ⟨s.children, by rw [hp]⟩
      · rw [ht] at hp
        cases hp
    · rcases child_spawn hc with ⟨rfl, -⟩ | hc
      · rfl
      · exact absurd hmem (hown c child hc)
  | @forkFails t pipe ht =>
    refine h.setCaller (Finset.erase_subset _ _) (fun pipe' hmem => ?_) trivial
    obtain ⟨hne, hmem⟩ := Finset.mem_erase.mp hmem
    rcases h.pending_eq hmem t with hp | ⟨c, hp⟩
    · rw [ht, Caller.piped.injEq] at hp
      exact absurd hp.symm hne
    · rw [ht] at hp
      cases hp
  | @close t pipe c ht =>
    have hown : s.Own (.forked pipe c) := ht ▸ h.own t
    refine h.setCaller (Finset.erase_subset _ _) (fun pipe' hmem => ?_)
      ⟨Finset.notMem_erase _ _, hown⟩
    obtain ⟨hne, hmem⟩ := Finset.mem_erase.mp hmem
    rcases h.pending_eq hmem t with hp | ⟨c', hp⟩
    · rw [ht] at hp
      cases hp
    · rw [ht, Caller.forked.injEq] at hp
      exact absurd hp.1.symm hne
  | drops hc hsub => exact h.setChild hc hsub nofun
  | exits hc => exact h.setChild hc (Finset.empty_subset _) fun _ => rfl
  | @reaps t pipe c ends ht hc =>
    have hown : s.Own (.waiting pipe c) := ht ▸ h.own t
    refine h.setCaller (Finset.Subset.refl _) (fun pipe' hmem => ?_)
      ⟨hown.1, fun c' child hc' hmem => ?_⟩
    · have hnone : s.ends = ∅ := h.ends_eq (t := t) (by simp [ht]) (by simp [ht])
      exact absurd (hnone ▸ hmem) (Finset.notMem_empty _)
    · obtain rfl := hown.2 c' child hc' hmem
      obtain rfl := Option.some.inj (hc.symm.trans hc')
      rw [h.closed _ ends hc] at hmem
      exact Finset.notMem_empty _ hmem
  | @expires t pipe c child ht hc =>
    have hnone : s.ends = ∅ := h.ends_eq (t := t) (by simp [ht]) (by simp [ht])
    have hkilled : State.Inv { s with child := Function.update s.child c (some ⟨false, ∅⟩) } :=
      h.setChild hc (Finset.empty_subset _) fun _ => rfl
    refine hkilled.setCaller (Finset.Subset.refl _) (fun pipe' hmem => ?_) trivial
    exact absurd (hnone ▸ hmem) (Finset.notMem_empty _)
  | @returns t pipe c ht hended =>
    have hnone : s.ends = ∅ := h.ends_eq (t := t) (by simp [ht]) (by simp [ht])
    refine h.setCaller (Finset.Subset.refl _) (fun pipe' hmem => ?_) trivial
    exact absurd (hnone ▸ hmem) (Finset.notMem_empty _)

end One

/-- A thread forks in `shell` while the pipe of another one is open, and its child lives on. -/
theorem not_prompt {t t' : T} (htt : t ≠ t') :
    ∃ s, Reachable Step (State.start T) s ∧ ¬ s.Prompt := by
  have hs : Reachable Step (State.start T) _ := Reachable.next ⟨[], .start⟩ (.pipe (t := t) rfl)
  have hs := hs.next (.shell (t := t') (Function.update_of_ne htt.symm _ _))
  have hpiped : Function.update (Function.update (fun _ => Caller.idle) t (.piped 0)) t' (.shell 0)
      t = .piped 0 := by
    rw [Function.update_of_ne htt, Function.update_self]
  have hs := hs.next (.fork (t := t) hpiped)
  have hs := hs.next (.close (t := t) (Function.update_self ..))
  have hs := hs.next (.exits (c := 1) rfl)
  have hs := hs.next (.reaps (t := t) (Function.update_self ..) rfl)
  refine ⟨_, hs, fun hprompt => ?_⟩
  have hended := hprompt t 0 1 (Function.update_self ..)
  exact hended.2 0 ⟨true, {0}⟩ rfl (Finset.mem_singleton_self 0)

/-- Whatever the order of their steps, the threads that have waited for their child come to the end
of its output, if and only if there is one thread at most. -/
theorem prompt_iff (T : Type*) [DecidableEq T] :
    (∀ s, Reachable Step (State.start T) s → s.Prompt) ↔ Subsingleton T := by
  constructor
  · intro hall
    by_contra hnot
    obtain ⟨t, t', htt⟩ := not_subsingleton_iff_nontrivial.mp hnot
    obtain ⟨s, hs, hprompt⟩ := not_prompt htt
    exact hprompt (hall s hs)
  · intro hT s hs t pipe c ht
    have hinv : s.Inv := hs.invariant inv_start fun _ _ _ h hstep => hstep.inv h
    have hown := hinv.own t
    rwa [ht] at hown

end Redx.Process.Inherit
