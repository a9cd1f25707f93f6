import Redx.Library.Run
import Mathlib.Data.Nat.Notation

/-!
# Coming to rest

Some events are the work of the parties themselves, others come from outside. A system drains when
the parties, left to themselves, can come to rest.
-/
namespace Redx.Library
open Relation

variable {σ ε : Type*} {step : σ → ε → σ → Prop} {serves : ε → Prop} {rest : σ → Prop} {s : σ}

/-- A step of the parties. -/
def Serving (step : σ → ε → σ → Prop) (serves : ε → Prop) (s t : σ) : Prop :=
  ∃ e, serves e ∧ step s e t

/-- Steps of the parties alone lead to a state at rest. -/
def Drains (step : σ → ε → σ → Prop) (serves : ε → Prop) (rest : σ → Prop) (s : σ) : Prop :=
  ∃ t, ReflTransGen (Serving step serves) s t ∧ rest t

/-- While the system is not at rest the parties have a step that leaves less to do. -/
theorem drains_of_measure {I : σ → Prop} (μ : σ → ℕ)
    (hI : ∀ s e t, I s → step s e t → I t)
    (hμ : ∀ s, I s → ¬ rest s → ∃ e t, serves e ∧ step s e t ∧ μ t < μ s) (hs : I s) :
    Drains step serves rest s := by
  induction hn : μ s using Nat.strongRecOn generalizing s with
  | ind n ih =>
    by_cases hrest : rest s
    · exact ⟨s, .refl, hrest⟩
    · obtain ⟨e, t, he, hst, hlt⟩ := hμ s hs hrest
      obtain ⟨u, htu, hu⟩ := ih (μ t) (hn ▸ hlt) (hI s e t hs hst) rfl
      exact ⟨u, .head ⟨e, he, hst⟩ htu, hu⟩

/-- What the parties cannot leave keeps them from rest. -/
theorem not_drains {P : σ → Prop} (hP : ∀ s e t, P s → serves e → step s e t → P t)
    (hrest : ∀ s, P s → ¬ rest s) (hs : P s) : ¬ Drains step serves rest s := by
  rintro ⟨t, hst, ht⟩
  refine hrest t ?_ ht
  clear ht
  induction hst with
  | refl => exact hs
  | tail _ hstep ih =>
    obtain ⟨e, he, hstep⟩ := hstep
    exact hP _ e _ ih he hstep

end Redx.Library
