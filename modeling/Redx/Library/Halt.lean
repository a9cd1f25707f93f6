import Mathlib.Data.Set.Finite.Basic
import Mathlib.Logic.Relation
import Mathlib.Order.WellFounded

/-!
# Walks that come to an end

When only finitely many states can be left, the walks from a state all come to an end unless one
of them can go round in a circle; and on every circle some step goes down, whatever the height.
-/
namespace Redx.Library

open Relation

variable {α : Type*} {r : α → α → Prop} {x : α}

/-- A walk that only leaves states of a finite set, and meets no circle, comes to an end. -/
theorem acc_of_acyclic {S : Set α} (hS : S.Finite)
    (hr : ∀ a b, ReflTransGen r x a → r a b → a ∈ S)
    (hx : ∀ a, ReflTransGen r x a → ¬ TransGen r a a) : Acc (flip r) x := by
  let β := {a // a ∈ S ∧ ReflTransGen r x a}
  have : Finite β := (hS.subset fun _ h => h.1 : {a | a ∈ S ∧ ReflTransGen r x a}.Finite)
  have : IsTrans β fun a b => TransGen r b.1 a.1 := ⟨fun _ _ _ hab hbc => hbc.trans hab⟩
  have : Std.Irrefl fun a b : β => TransGen r b.1 a.1 := ⟨fun a => hx a.1 a.2.2⟩
  have hwf := Finite.wellFounded_of_trans_of_irrefl fun a b : β => TransGen r b.1 a.1
  have hacc (a : β) : Acc (flip r) a.1 := by
    induction a using hwf.induction with
    | _ a ih =>
      refine .intro _ fun b hb => ?_
      have hxb := a.2.2.tail hb
      by_cases hbS : b ∈ S
      · exact ih ⟨b, hbS, hxb⟩ (.single hb)
      · exact .intro _ fun c hc => absurd (hr b c hxb hc) hbS
  by_cases hxS : x ∈ S
  · exact hacc ⟨x, hxS, .refl⟩
  · exact .intro _ fun c hc => absurd (hr x c .refl hc) hxS

theorem not_transGen_of_acc (h : Acc (flip r) x) : ¬ TransGen r x x := by
  induction h with
  | intro x _ ih =>
    intro hx
    obtain ⟨y, hxy, hyx⟩ := TransGen.head'_iff.mp hx
    exact ih y hxy (TransGen.tail' hyx hxy)

theorem acc_of_reflTransGen {y : α} (h : Acc (flip r) x) (hxy : ReflTransGen r x y) :
    Acc (flip r) y := by
  induction hxy with
  | refl => exact h
  | tail _ hs ih => exact ih.inv hs

/-- On the way from one state to another the height grows, unless some step goes down. -/
theorem lt_or_exists_drop (μ : α → ℤ) {y : α} (h : TransGen r x y) :
    μ x < μ y ∨ ∃ a b, r a b ∧ μ b ≤ μ a ∧ ReflTransGen r x a ∧ ReflTransGen r b y := by
  induction h with
  | single hs =>
    rcases lt_or_ge (μ x) (μ _) with hlt | hge
    · exact .inl hlt
    · exact .inr ⟨_, _, hs, hge, .refl, .refl⟩
  | tail hxy hs ih =>
    rcases ih with hlt | ⟨a, b, hab, hdrop, hxa, hby⟩
    · rcases lt_or_ge (μ _) (μ _) with hlt' | hge
      · exact .inl (hlt.trans hlt')
      · exact .inr ⟨_, _, hs, hge, hxy.to_reflTransGen, .refl⟩
    · exact .inr ⟨a, b, hab, hdrop, hxa, hby.tail hs⟩

/-- On a circle some step goes down, and leads back to where it started from. -/
theorem exists_drop_of_circle (μ : α → ℤ) (h : TransGen r x x) :
    ∃ a b, ReflTransGen r x a ∧ r a b ∧ μ b ≤ μ a ∧ ReflTransGen r b a := by
  rcases lt_or_exists_drop μ h with hlt | ⟨a, b, hab, hdrop, hxa, hbx⟩
  · exact absurd hlt (lt_irrefl _)
  · exact ⟨a, b, hxa, hab, hdrop, hbx.trans hxa⟩

end Redx.Library
