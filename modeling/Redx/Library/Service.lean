import Mathlib.Data.List.Basic

/-!
# Requests in turn

A service answers requests and changes its state. Two services that change their state alike give
the same answers to a list of requests exactly when they do so at each request on the way.
-/
namespace Redx.Library

variable {σ ι ρ : Type*}

/-- The requests one after the other: the last state, and the answers. -/
def serveAll (step : σ → ι → σ × ρ) : σ → List ι → σ × List ρ
  | s, [] => (s, [])
  | s, i :: is =>
    let rest := serveAll step (step s i).1 is
    (rest.1, (step s i).2 :: rest.2)

/-- The condition holds at each request, in the state in which it comes. -/
def Along (step : σ → ι → σ × ρ) (P : σ → ι → Prop) : σ → List ι → Prop
  | _, [] => True
  | s, i :: is => P s i ∧ Along step P (step s i).1 is

variable {f g : σ → ι → σ × ρ} {P : σ → ι → Prop} {Q : ι → Prop} {s : σ} {is : List ι}

/-- Where the states agree after every request and the answers agree under a condition, all
answers agree exactly when the condition holds along the way. -/
theorem serveAll_eq_iff (hstate : ∀ s i, Q i → (f s i).1 = (g s i).1)
    (hanswer : ∀ s i, Q i → ((f s i).2 = (g s i).2 ↔ P s i)) (hQ : ∀ i ∈ is, Q i) :
    serveAll f s is = serveAll g s is ↔ Along g P s is := by
  induction is generalizing s with
  | nil => exact iff_of_true rfl trivial
  | cons i is ih =>
    rw [List.forall_mem_cons] at hQ
    rw [Along, ← ih hQ.2, ← hanswer s i hQ.1]
    simp only [serveAll, hstate s i hQ.1, Prod.ext_iff, List.cons.injEq]
    tauto

end Redx.Library
