import Mathlib.Logic.Relation

/-!
# Runs of a labelled transition relation

A run keeps its history: each state it left, with the event taken there. A property of
every state reached is then a property of the history, and a condition on the steps is one too.
-/
namespace Redx.Library

variable {σ ε : Type*}

/-- `Run step s₀ h s`: from `s₀` the events of `h` lead to `s`; `h` lists, oldest first,
each state left and the event taken in it. -/
inductive Run (step : σ → ε → σ → Prop) (s₀ : σ) : List (σ × ε) → σ → Prop
  | start : Run step s₀ [] s₀
  | next {h : List (σ × ε)} {s t : σ} {e : ε} :
      Run step s₀ h s → step s e t → Run step s₀ (h ++ [(s, e)]) t

/-- States that some run ends in. -/
def Reachable (step : σ → ε → σ → Prop) (s₀ s : σ) : Prop := ∃ h, Run step s₀ h s

/-- `P` holds in every state that the run passes through, the last one included. -/
def Always (P : σ → Prop) (h : List (σ × ε)) (s : σ) : Prop := (∀ x ∈ h, P x.1) ∧ P s

/-- Every step of the history was taken in a state and with an event that satisfy `C`. -/
def Meets (C : σ → ε → Prop) (h : List (σ × ε)) : Prop := ∀ x ∈ h, C x.1 x.2

variable {step : σ → ε → σ → Prop} {s₀ s : σ} {h : List (σ × ε)}

theorem Meets.append_singleton {C : σ → ε → Prop} {t : σ} {e : ε} :
    Meets C (h ++ [(t, e)]) ↔ Meets C h ∧ C t e := by
  simp only [Meets, List.mem_append, List.mem_singleton]
  constructor
  · intro hm
    exact ⟨fun x hx => hm x (.inl hx), hm (t, e) (.inr rfl)⟩
  · rintro ⟨hm, hc⟩ x (hx | rfl)
    · exact hm x hx
    · exact hc

theorem Always.append_singleton {P : σ → Prop} {t : σ} {e : ε} :
    Always P (h ++ [(t, e)]) s ↔ Always P h t ∧ P s := by
  simp only [Always, List.mem_append, List.mem_singleton]
  constructor
  · rintro ⟨hp, hs⟩
    exact ⟨⟨fun x hx => hp x (.inl hx), hp (t, e) (.inr rfl)⟩, hs⟩
  · rintro ⟨⟨hp, ht⟩, hs⟩
    refine ⟨?_, hs⟩
    rintro x (hx | rfl)
    · exact hp x hx
    · exact ht

/-- What the initial state satisfies and every step preserves holds at the end of every run. -/
theorem Run.invariant {P : σ → Prop} (h₀ : P s₀)
    (hstep : ∀ s e t, P s → step s e t → P t) (hr : Run step s₀ h s) : P s := by
  induction hr with
  | start => exact h₀
  | next _ hs ih => exact hstep _ _ _ ih hs

theorem Reachable.invariant {P : σ → Prop} (h₀ : P s₀)
    (hstep : ∀ s e t, P s → step s e t → P t) (hr : Reachable step s₀ s) : P s := by
  obtain ⟨h, hr⟩ := hr
  exact hr.invariant h₀ hstep

theorem Reachable.next {t : σ} {e : ε} (hr : Reachable step s₀ s) (hs : step s e t) :
    Reachable step s₀ t := by
  obtain ⟨h, hr⟩ := hr
  exact ⟨_, hr.next hs⟩

/-- An invariant that a step preserves only under `C` holds throughout the runs that meet `C`. -/
theorem Run.always {P : σ → Prop} {C : σ → ε → Prop} (h₀ : P s₀)
    (hstep : ∀ s e t, P s → C s e → step s e t → P t) (hr : Run step s₀ h s)
    (hm : Meets C h) : Always P h s := by
  induction hr with
  | start => exact ⟨by simp, h₀⟩
  | next _ hs ih =>
    obtain ⟨hm, hc⟩ := Meets.append_singleton.mp hm
    have hp := ih hm
    exact Always.append_singleton.mpr ⟨hp, hstep _ _ _ hp.2 hc hs⟩

/-- When, in states that satisfy the invariant `I` and `P`, a step preserves `P` exactly under
`C`, a run keeps `P` throughout if and only if all its steps meet `C`. -/
theorem Run.always_iff_meets {I P : σ → Prop} {C : σ → ε → Prop} (hi : I s₀) (hp : P s₀)
    (hI : ∀ s e t, I s → step s e t → I t)
    (hP : ∀ s e t, I s → P s → step s e t → (P t ↔ C s e)) (hr : Run step s₀ h s) :
    Always P h s ↔ Meets C h := by
  induction hr with
  | start => simp [Always, Meets, hp]
  | next hr hs ih =>
    rw [Always.append_singleton, Meets.append_singleton, ← ih]
    have hinv := hr.invariant hi hI
    constructor
    · rintro ⟨ha, ht⟩
      exact ⟨ha, (hP _ _ _ hinv ha.2 hs).mp ht⟩
    · rintro ⟨ha, hc⟩
      exact ⟨ha, (hP _ _ _ hinv ha.2 hs).mpr hc⟩

theorem Run.cons {t : σ} {e : ε} (hs : step s₀ e t) (hr : Run step t h s) :
    Run step s₀ ((s₀, e) :: h) s := by
  induction hr with
  | start => exact .next .start hs
  | next _ hs' ih => exact .next ih hs'

/-- The history and the last state of a list of events, for a step that is a function. -/
def follow (step : σ → ε → Option σ) : σ → List ε → Option (List (σ × ε) × σ)
  | s, [] => some ([], s)
  | s, e :: es =>
    match step s e with
    | none => none
    | some t =>
      match follow step t es with
      | none => none
      | some (h, u) => some ((s, e) :: h, u)

theorem Run.of_follow {step : σ → ε → Option σ} {es : List ε}
    (hf : follow step s₀ es = some (h, s)) :
    Run (fun s e t => step s e = some t) s₀ h s := by
  induction es generalizing s₀ h with
  | nil =>
    obtain ⟨rfl, rfl⟩ := Prod.mk.inj (Option.some.inj hf)
    exact .start
  | cons e es ih =>
    rw [follow] at hf
    split at hf
    · cases hf
    · rename_i t ht
      split at hf
      · cases hf
      · rename_i h' u hu
        obtain ⟨rfl, rfl⟩ := Prod.mk.inj (Option.some.inj hf)
        exact .cons ht (ih hu)

section Fields

variable {β : Type*}

/-- What the last of the events that assign a field assigns to it. -/
def latest (assigned : ε → Option β) (events : List ε) : Option β :=
  events.reverse.findSome? assigned

/-- A field holds what was assigned to it last. -/
theorem get_foldl {step : σ → ε → σ} (get : σ → β) {assigned : ε → Option β}
    (h : ∀ s e, get (step s e) = (assigned e).getD (get s)) (events : List ε) (s : σ) :
    get (events.foldl step s) = (latest assigned events).getD (get s) := by
  induction events generalizing s with
  | nil => rfl
  | cons e events ih =>
    rw [List.foldl_cons, ih, h]
    unfold latest
    rw [List.reverse_cons, List.findSome?_append]
    cases events.reverse.findSome? assigned with
    | none => cases he : assigned e <;> simp [he]
    | some b => rfl

end Fields

end Redx.Library
