import Redx.Json.Accept
import Mathlib.Data.Nat.Digits.Lemmas
import Mathlib.Tactic.Ring

/-!
# Strings and integers

A literal can stand for every string that has no backslash, which there is no escape for. The
digits of an integer go on behind the value of the one before it, unless it is a single 0.
-/
namespace Redx.Json
open Library Library.Source

variable {s t : Scanner} {v : Values} {cs content rest : List UInt8}

/-! ### Strings -/

/-- The characters of a literal for a string, with its quotes and backslashes escaped. -/
def escape (content : List UInt8) : List UInt8 :=
  content.flatMap fun c => if c = 34 ∨ c = 92 then [92, c] else [c]

theorem metachar_ne {c c' : UInt8} (h : metachar c = some c') : c' ≠ 92 := by
  have hall : ∀ c : Fin 256, metachar (UInt8.ofFin c) ≠ some 92 := by decide +kernel
  rintro rfl
  exact hall c.toFin h

theorem Body.notMem (h : Body cs content) : 92 ∉ content := by
  induction h with
  | nil => exact List.not_mem_nil
  | plain _ hb _ ih => exact List.not_mem_cons_of_ne_of_not_mem (Ne.symm hb) ih
  | escape hc _ ih => exact List.not_mem_cons_of_ne_of_not_mem (Ne.symm (metachar_ne hc)) ih

/-- The long whose digits are those of another and some behind them. -/
def withDigits (base : ℕ) (digits : List ℕ) (x : ℤ) : ℤ :=
  toLong (x * base ^ digits.length + Nat.ofDigits base digits.reverse)

/-- The integers that the scanner knows: the characters, and the value reported for them behind
another one. -/
inductive Numeral : List UInt8 → (ℤ → ℤ) → Prop
  | zero : Numeral [48] fun _ => 0
  | decimal {d : UInt8} {ds : List UInt8} : isDigit d → d ≠ 48 → (∀ c ∈ ds, isDigit c) →
      Numeral (d :: ds) (withDigits 10 ((d :: ds).map digit))
  | octal {ds : List UInt8} : ds ≠ [] → (∀ c ∈ ds, isOctalDigit c) →
      Numeral (48 :: ds) (withDigits 8 (ds.map digit))
  | hexadecimal {ds : List UInt8} : (∀ c ∈ ds, isHexDigit c) →
      Numeral (48 :: 120 :: ds) (withDigits 16 (ds.map hexDigit))

theorem toLong_add_digit (x base d : ℤ) :
    toLong (toLong x * base + d) = toLong (x * base + d) := by
  rw [toLong, toLong, ← Int.bmod_add_bmod, Int.bmod_mul_bmod, Int.bmod_add_bmod, toLong]

theorem addDigits_toLong (base : ℕ) (x : ℤ) (digits : List ℕ) :
    addDigits base (toLong x) digits = withDigits base digits x := by
  induction digits generalizing x with
  | nil => simp [addDigits, withDigits]
  | cons d digits ih =>
    have hdigits : x * base ^ (digits.length + 1) +
          (Nat.ofDigits base (digits.reverse ++ [d]) : ℕ) =
        (x * base + d) * base ^ digits.length + (Nat.ofDigits base digits.reverse : ℕ) := by
      rw [Nat.ofDigits_append, Nat.ofDigits_singleton, List.length_reverse]
      push_cast
      ring
    rw [addDigits, List.foldl_cons, toLong_add_digit, withDigits, List.reverse_cons,
      List.length_cons, hdigits]
    exact ih _

theorem Numeral.toLong_eq {ds : List UInt8} {f : ℤ → ℤ} (h : Numeral ds f) (x : ℤ) :
    toLong (f x) = f x := by
  cases h with
  | zero => rfl
  | decimal | octal | hexadecimal => exact toLong_eq_self (toLong_range _).1 (toLong_range _).2

/-- The scanner takes the characters for an integer, which neither a comma nor a bracket goes on
with. -/
theorem Numeral.lexeme {ds : List UInt8} {f : ℤ → ℤ} (h : Numeral ds f)
    (hv : toLong v.integer = v.integer) :
    ∃ F more, Lexeme ds .integer F more ∧ F v = ⟨v.string, f v.integer⟩ ∧
      more 44 = false ∧ more 93 = false := by
  have hadd (base : ℕ) (digits : List ℕ) :
      addDigits base v.integer digits = withDigits base digits v.integer := by
    rw [← addDigits_toLong, hv]
  cases h with
  | zero => exact ⟨_, _, .zero, rfl, by decide, by decide⟩
  | decimal hd h0 hds => exact ⟨_, _, .decimal hd h0 hds, by rw [hadd], by decide, by decide⟩
  | octal hne hds => exact ⟨_, _, .octal hne hds, by rw [hadd], by decide, by decide⟩
  | hexadecimal hds => exact ⟨_, _, .hexadecimal hds, by rw [hadd], by decide, by decide⟩

/-- What is behind a number in a list of numbers. -/
def behind (numerals : List (List UInt8)) : List UInt8 :=
  numerals.flatMap (44 :: ·) ++ [93]

/-- The integers among the items. -/
def integers (is : List (Token × Values)) : List ℤ :=
  (is.filter (·.1 = .integer)).map (·.2.integer)

theorem integers_cons {a : Token} {w : Values} {is : List (Token × Values)} :
    integers ((a, w) :: is) = if a = .integer then w.integer :: integers is else integers is := by
  rw [integers, List.filter_cons]
  split_ifs <;> simp_all [integers]

/-- A lexeme without white space before it. -/
theorem Lexeme.next {rest : List UInt8} {a : Token} {f : Values → Values} {more : UInt8 → Bool}
    {is : List (Token × Values)} (hlex : Lexeme cs a f more) (hends : Ends more rest)
    (h : Lexes (f v) rest is) : Lexes v (cs ++ rest) ((a, f v) :: is) := by
  have hws : ∀ c ∈ ([] : List UInt8), isWhitespace c := nofun
  exact List.nil_append (cs ++ rest) ▸ Lexes.token hws hlex hends h

/-- The values reported for the numbers of a list, behind another one. -/
def reported (x : ℤ) (values : List (ℤ → ℤ)) : List ℤ := (values.scanl (fun x f => f x) x).tail

theorem reported_cons {x : ℤ} {f : ℤ → ℤ} {values : List (ℤ → ℤ)} :
    reported x (f :: values) = f x :: reported (f x) values := by
  cases values <;> simp only [reported, List.scanl_nil, List.scanl_cons, List.tail_cons]

theorem lexes_number {ds string : List UInt8} {f : ℤ → ℤ} {x : ℤ}
    {numerals : List (List UInt8)} {values : List (ℤ → ℤ)} (hds : Numeral ds f)
    (hx : toLong x = x)
    (h : ∃ is, Lexes ⟨string, f x⟩ (behind numerals) is ∧ integers is = reported (f x) values) :
    ∃ is, Lexes ⟨string, x⟩ (ds ++ behind numerals) is ∧
      integers is = reported x (f :: values) := by
  obtain ⟨is, his, hints⟩ := h
  obtain ⟨F, more, hlex, hF, hcomma, hbracket⟩ := hds.lexeme (v := ⟨string, x⟩) hx
  have hends : Ends more (behind numerals) := by
    cases numerals <;> simp [Ends, behind, hcomma, hbracket]
  refine ⟨_, hlex.next hends (hF ▸ his), ?_⟩
  rw [integers_cons, if_pos rfl, hints, hF, reported_cons]

theorem lexes_behind {numerals : List (List UInt8)} {values : List (ℤ → ℤ)}
    (hnum : List.Forall₂ Numeral numerals values) (string : List UInt8) {x : ℤ}
    (hx : toLong x = x) :
    ∃ is, Lexes ⟨string, x⟩ (behind numerals) is ∧ integers is = reported x values := by
  induction hnum generalizing x with
  | nil =>
    have hclose : Lexeme [93] .rightBracket id fun _ => false := .punctuation rfl
    have hend : Lexes ⟨string, x⟩ [] [] := .done fun c hc => absurd hc List.not_mem_nil
    exact ⟨_, hclose.next (fun _ _ => rfl) hend, by rw [integers_cons]; rfl⟩
  | @cons ds f numerals values hds _ ih =>
    obtain ⟨is, his, hints⟩ := lexes_number hds hx (ih (hds.toLong_eq x))
    have hcomma : Lexeme [44] .comma id fun _ => false := .punctuation rfl
    have htext : behind (ds :: numerals) = [44] ++ (ds ++ behind numerals) := by simp [behind]
    exact ⟨_, htext ▸ hcomma.next (fun _ _ => rfl) his, by rw [integers_cons, if_neg nofun, hints]⟩

/-- A list of numbers as text. -/
def array : List (List UInt8) → List UInt8
  | [] => [91] ++ behind []
  | ds :: numerals => [91] ++ (ds ++ behind numerals)

/-- The value of each number in a list has its digits behind those of the value before it: only a
0 sets it back. -/
theorem integers_array (numerals : List (List UInt8)) (values : List (ℤ → ℤ))
    (hnum : List.Forall₂ Numeral numerals values)
    (hlen : (array numerals).length + 1 < sizeofInput) :
    ∃ s t is, getNextToken (atStart (array numerals)) = .ok s ∧ items.Reads s is t ∧
      t.currentToken = .endOfInput ∧ integers is = reported 0 values := by
  have hzero : toLong 0 = 0 := by decide
  have hopen : Lexeme [91] .leftBracket id fun _ => false := .punctuation rfl
  obtain ⟨is, his, hints⟩ : ∃ is, Lexes ⟨[], 0⟩ (array numerals) is ∧
      integers is = reported 0 values := by
    cases hnum with
    | nil =>
      obtain ⟨is, his, hints⟩ := lexes_behind .nil [] hzero
      exact ⟨_, hopen.next (fun _ _ => rfl) his, by rw [integers_cons, if_neg nofun, hints]⟩
    | cons hds hnum =>
      obtain ⟨is, his, hints⟩ := lexes_number hds hzero (lexes_behind hnum [] (hds.toLong_eq 0))
      exact ⟨_, hopen.next (fun _ _ => rfl) his, by rw [integers_cons, if_neg nofun, hints]⟩
  obtain ⟨s, t, hs, hr, ht, -⟩ := his.reads (looks_atStart hlen)
  exact ⟨s, t, is, hs, hr, ht, hints⟩

/-- The list of 1, 2, 0, 7, 012 and 0x1f. -/
theorem integers_array_mixed :
    ∃ s t is, getNextToken
        (atStart (array [[49], [50], [48], [55], [48, 49, 50], [48, 120, 49, 102]])) = .ok s ∧
      items.Reads s is t ∧ t.currentToken = .endOfInput ∧
      integers is = [1, 12, 0, 7, 458, 117279] := by
  have hdecimal (d : UInt8) (hd : isDigit d) (h0 : d ≠ 48) :
      Numeral [d] (withDigits 10 [digit d]) := .decimal hd h0 nofun
  have hoctal : Numeral [48, 49, 50] (withDigits 8 [1, 2]) :=
    .octal (List.cons_ne_nil _ _) (by rw [List.forall_mem_cons, List.forall_mem_singleton]; decide)
  have hhex : Numeral [48, 120, 49, 102] (withDigits 16 [1, 15]) :=
    @Numeral.hexadecimal [49, 102]
      (by rw [List.forall_mem_cons, List.forall_mem_singleton]; decide)
  have h := integers_array _ _ (.cons (hdecimal 49 (by decide) (by decide))
    (.cons (hdecimal 50 (by decide) (by decide)) (.cons .zero
      (.cons (hdecimal 55 (by decide) (by decide)) (.cons hoctal (.cons hhex .nil))))))
    (by decide)
  have hreported : reported 0 [withDigits 10 [digit 49], withDigits 10 [digit 50], fun _ => 0,
      withDigits 10 [digit 55], withDigits 8 [1, 2], withDigits 16 [1, 15]] =
        [1, 12, 0, 7, 458, 117279] := by decide +kernel
  rwa [hreported] at h

end Redx.Json
