import Redx.Library.Run
import Redx.Monitor.UUID

/-!
# Equality of UUIDs and of their texts

Whatever calls made them, and whatever text they were set from, two UUIDs are equal exactly when
their texts are: each object keeps the text of its bytes, and the text tells the bytes.
-/
namespace Redx.Monitor
open Library

namespace UUID

/-- The bytes one after the other, up to the first that differs. -/
def compareBytes (a b : UUID) (differ same : Bool) : List (Fin 16) → Bool
  | [] => same
  | i :: is => if a.data i ≠ b.data i then differ else compareBytes a b differ same is

/-- `operator ==` -/
def eq (a b : UUID) : Bool := compareBytes a b false true (List.finRange 16)

/-- `operator !=` -/
def ne (a b : UUID) : Bool := compareBytes a b true false (List.finRange 16)

variable {a b : UUID}

theorem compareBytes_eq (differ same : Bool) (is : List (Fin 16)) :
    compareBytes a b differ same is =
      if ∀ i ∈ is, a.data i = b.data i then same else differ := by
  induction is with
  | nil => simp [compareBytes]
  | cons i is ih =>
    rw [compareBytes, ih]
    by_cases h : a.data i = b.data i
    · simp [h]
    · simp [h]

theorem eq_iff : a.eq b = true ↔ a.data = b.data := by
  rw [eq, compareBytes_eq]
  split_ifs with h
  · exact iff_of_true rfl (funext fun i => h i (List.mem_finRange i))
  · exact iff_of_false nofun fun heq => h fun i _ => congrFun heq i

theorem ne_eq : a.ne b = !a.eq b := by
  rw [ne, eq, compareBytes_eq, compareBytes_eq]
  split_ifs <;> rfl

/-- The text tells the bytes. -/
theorem format_inj {data data' : Fin 16 → UInt8} : format data = format data' ↔ data = data' := by
  refine ⟨fun h => ?_, fun h => h ▸ rfl⟩
  rw [← parse_format data, h, parse_format]

theorem Formatted.text_inj (ha : a.Formatted) (hb : b.Formatted) :
    a.text = b.text ↔ a.data = b.data := by
  rw [ha.text, hb.text, List.ofFn_inj, ← format_inj]
  constructor
  · intro h
    funext c
    induction c using Fin.lastCases with
    | last => rw [format_last, format_last]
    | cast c => exact congrFun h c
  · intro h
    rw [h]

/-- The calls of the class: constructors of an object `x`, assignment to it and `set`. -/
inductive Call where
  | new (x : ℕ)
  | newCopy (x that : ℕ)
  | newText (x : ℕ) (input : Fin 37 → UInt8)
  | newData (x : ℕ) (input : Fin 16 → UInt8)
  | assign (x that : ℕ)
  | setText (x : ℕ) (input : Fin 37 → UInt8)
  | setData (x : ℕ) (input : Fin 16 → UInt8)

/-- A constructor makes an object in any place; the other calls need one. -/
inductive Calls : (ℕ → Option UUID) → Call → (ℕ → Option UUID) → Prop
  | new {s : ℕ → Option UUID} {x : ℕ} :
      Calls s (.new x) (Function.update s x (some (.ofData fun _ => 0)))
  | newCopy {s : ℕ → Option UUID} {x y : ℕ} {that : UUID} : s y = some that →
      Calls s (.newCopy x y) (Function.update s x (some (.ofData that.data)))
  | newText {s : ℕ → Option UUID} {x : ℕ} {input : Fin 37 → UInt8} :
      Calls s (.newText x input) (Function.update s x (some (.ofString input)))
  | newData {s : ℕ → Option UUID} {x : ℕ} {input : Fin 16 → UInt8} :
      Calls s (.newData x input) (Function.update s x (some (.ofData input)))
  | assign {s : ℕ → Option UUID} {x y : ℕ} {u that : UUID} : s x = some u → s y = some that →
      Calls s (.assign x y) (Function.update s x (some that))
  | setText {s : ℕ → Option UUID} {x : ℕ} {u : UUID} {input : Fin 37 → UInt8} : s x = some u →
      Calls s (.setText x input) (Function.update s x (some (.ofString input)))
  | setData {s : ℕ → Option UUID} {x : ℕ} {u : UUID} {input : Fin 16 → UInt8} : s x = some u →
      Calls s (.setData x input) (Function.update s x (some (.ofData input)))

/-- Every object's text is the one of its bytes. -/
def AllFormatted (s : ℕ → Option UUID) : Prop := ∀ x u, s x = some u → u.Formatted

variable {s t : ℕ → Option UUID} {e : Call}

theorem AllFormatted.update (h : AllFormatted s) {x : ℕ} {u : UUID} (hu : u.Formatted) :
    AllFormatted (Function.update s x (some u)) := by
  intro y v hv
  by_cases hy : y = x
  · subst hy
    rw [Function.update_self] at hv
    exact Option.some.inj hv ▸ hu
  · rw [Function.update_of_ne hy] at hv
    exact h y v hv

theorem Calls.allFormatted (h : AllFormatted s) (hs : Calls s e t) : AllFormatted t := by
  cases hs with
  | new => exact h.update (ofData_formatted _)
  | newCopy => exact h.update (ofData_formatted _)
  | newText => exact h.update (ofString_formatted _)
  | newData => exact h.update (ofData_formatted _)
  | @assign x y u that _ hthat => exact h.update (h y that hthat)
  | setText => exact h.update (ofString_formatted _)
  | setData => exact h.update (ofData_formatted _)

/-- After any calls, the text of an object is that of its bytes, `==` says whether the texts of
two objects are the same, and `!=` is its negation. -/
theorem uuid_text_agrees {s : ℕ → Option UUID} (h : Reachable Calls (fun _ => none) s) {x y : ℕ}
    {a b : UUID} (ha : s x = some a) (hb : s y = some b) :
    a.text = List.ofFn (fun c : Fin 36 => format a.data c.castSucc) ∧
      a.string = format a.data ∧ (a.eq b = true ↔ a.text = b.text) ∧ a.ne b = !a.eq b := by
  have hall : AllFormatted s := by
    refine h.invariant (fun z u hz => ?_) fun _ _ _ hp hstep => hstep.allFormatted hp
    cases hz
  have hfa := hall x a ha
  have hfb := hall y b hb
  refine ⟨hfa.text, hfa, ?_, ne_eq⟩
  rw [eq_iff, hfa.text_inj hfb]

/-- An object made of bytes and one set from a text that differs in a digit. -/
theorem uuid_text_agrees_two :
    let a := ofData fun _ => 0x12
    let b := ofString (Function.update (format fun _ => 0x12) 35 (UInt8.ofNat 'A'.toNat))
    a.text ≠ b.text ∧ b.string = format b.data ∧ a.ne b = true := by
  intro a b
  have hr : Reachable Calls (fun _ => none)
      (Function.update (Function.update (fun _ => none) 0 (some a)) 1 (some b)) :=
    ⟨_, .next (.next .start .newData) .newText⟩
  obtain ⟨-, hstring, -, -⟩ := uuid_text_agrees hr (x := 1) (y := 1) rfl rfl
  obtain ⟨-, -, heq, hne⟩ := uuid_text_agrees hr (x := 0) (y := 1) rfl rfl
  have hdiffer : a.eq b = false := by decide
  refine ⟨fun htext => ?_, hstring, ?_⟩
  · rw [heq.mpr htext] at hdiffer
    cases hdiffer
  · rw [hne, hdiffer]
    rfl

end UUID

end Redx.Monitor
