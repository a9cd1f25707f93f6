import Redx.Json.Sound

/-!
# How the program stops

The scanner has read a piece of the text and stored it, and its string is shorter than that. So
the report of an error shows the text up to the character that the scanner is at, and no string
is too long as long as the text is not.
-/
namespace Redx.Json
open Library Library.Source

/-- How many characters are in the line that some text ends in. -/
def column (text : List UInt8) : ℕ := (text.reverse.takeWhile (· ≠ 10)).length

/-- The line is all the text up to a character, and the caret is below that. -/
def Report.Points (report : Report) (before : List UInt8) (c : UInt8) : Prop :=
  report.line = before ++ [c] ∧ report.blanks = column before

/-- The report shows the text up to the character, if not for a NUL in it, and points at the
character, if not for a newline before it. -/
def Report.Right (report : Report) (before : List UInt8) (c : UInt8) : Prop :=
  report.line = cString (before ++ [c]) ∧
    (report.Points before c ↔ 0 ∉ before ++ [c] ∧ 10 ∉ before)

/-- What a stop tells about the text: the report ends with the character that is wrong, or with
the one that the parser has not taken yet, and only long texts overrun a buffer, that of the input
or that of the token's report. -/
def Reports (stdin : List UInt8) : Stop → Prop
  | .exit .unterminatedString report => report.Right stdin 255
  | .exit (.invalidCharacter c) report =>
    ∃ before rest, stdin = before ++ c :: rest ∧ report.Right before c
  | .exit (.parseError _) report | .exit (.required _) report =>
    ∃ before rest, stdin = before ++ rest ∧ report.Right before (rest.head?.getD 255)
  | .overrun .input => 4095 ≤ stdin.length
  | .overrun .report => 4084 ≤ stdin.length
  | .overrun .currentString => False
  | .fuel => False

/-- The scanner has stored the characters before the text and the first of the text. -/
structure Good (stdin : List UInt8) (s : Scanner) : Prop where
  stored : ∃ before, stdin = before ++ s.text ∧ s.input = before ++ [s.c.getD 255]
  string : s.currentString.length < s.input.length
  integer : -2 ^ 63 ≤ s.currentInteger ∧ s.currentInteger < 2 ^ 63
  room : s.input.length < sizeofInput

/-- What a call may come to. -/
def Outcome (stdin : List UInt8) : Except Stop Scanner → Prop
  | .ok t => Good stdin t
  | .error e => Reports stdin e

variable {stdin before : List UInt8} {s t : Scanner} {c : UInt8} {n : ℕ} {label : Label}

section Reports

theorem column_eq_length_iff : column before = before.length ↔ 10 ∉ before := by
  have hfront := List.takeWhile_prefix (fun c : UInt8 => decide (c ≠ 10)) (l := before.reverse)
  have hlength : before.length = before.reverse.length := List.length_reverse.symm
  rw [column, hlength]
  constructor
  · intro h hmem
    have hall := List.takeWhile_eq_self_iff.mp (hfront.eq_of_length h)
    exact absurd (hall 10 (List.mem_reverse.mpr hmem)) (by decide)
  · intro h
    rw [List.takeWhile_eq_self_iff.mpr]
    intro c hc
    have hne : c ≠ 10 := fun heq => h (heq ▸ List.mem_reverse.mp hc)
    simpa using hne

theorem cString_eq_self_iff {text : List UInt8} : cString text = text ↔ 0 ∉ text := by
  rw [cString, List.takeWhile_eq_self_iff]
  constructor
  · exact fun h hmem => absurd (h 0 hmem) (by decide)
  · intro h c hc
    have hne : c ≠ 0 := fun heq => h (heq ▸ hc)
    simpa using hne

/-- `scanner_report`, behind the text up to a character. -/
theorem report_right (hinput : s.input = before ++ [c]) (message : String) :
    (s.report message).Right before c := by
  have hline : (s.report message).line = cString (before ++ [c]) := by
    rw [Scanner.report, hinput]
  have hblanks : (s.report message).blanks = before.length := by
    rw [Scanner.report, hinput, List.length_append]
    rfl
  refine ⟨hline, ?_⟩
  rw [Report.Points, hline, hblanks, eq_comm (b := column before), column_eq_length_iff,
    cString_eq_self_iff]

theorem of_sprintf {text : List UInt8} {e : Stop} (h : Scanner.sprintf text = .error e) :
    e = .overrun .report ∧ 4096 ≤ text.length := by
  rw [Scanner.sprintf, sizeofReport] at h
  split_ifs at h with hfits
  exact ⟨(Except.error.inj h).symm, not_lt.mp hfits⟩

/-- Only a string can be too long for the buffer of `report_token`. -/
theorem of_reportToken {e : Stop} (h : s.reportToken = .error e)
    (hlow : -2 ^ 63 ≤ s.currentInteger) (hhigh : s.currentInteger < 2 ^ 63) :
    e = .overrun .report ∧ 4084 ≤ s.currentString.length := by
  have hstring : (cString s.currentString).length ≤ s.currentString.length :=
    (List.takeWhile_sublist _).length_le
  have hlong : (signedDecimal s.currentInteger).length ≤ 18 + 2 :=
    length_signedDecimal_le (by omega) (by omega)
  rw [Scanner.reportToken] at h
  split at h
  case h_8 | h_10 =>
    obtain ⟨rfl, hlen⟩ := of_sprintf h
    simp only [List.length_append, List.length_cons, List.length_nil] at hlen
    exact ⟨rfl, by omega⟩
  case h_9 =>
    -- twenty digits and a sign are not too much
    obtain ⟨-, hlen⟩ := of_sprintf h
    simp only [List.length_append, List.length_cons, List.length_nil] at hlen
    omega
  all_goals cases h

end Reports

namespace Good

theorem outcome_nextchar (h : Good stdin s) (hc : s.c = some c)
    {f : Scanner → Except Stop Scanner} (hf : Good stdin s.next → Outcome stdin (f s.next)) :
    Outcome stdin (s.nextchar >>= f) := by
  obtain ⟨before, hstdin, hinput⟩ := h.stored
  have hs := text_of_c hc
  have hstring := h.string
  rw [Scanner.nextchar]
  split_ifs with hroom
  · refine hf ⟨⟨before ++ [c], ?_, ?_⟩, ?_, h.integer, ?_⟩
    · rw [hstdin, hs, List.append_assoc, List.singleton_append]
    · rw [hc] at hinput
      rw [Scanner.next, hinput]
      rfl
    · simp only [Scanner.next, List.length_append, List.length_singleton]
      omega
    · simpa [Scanner.next] using hroom
  · have hlen := congrArg List.length hstdin
    rw [hs, List.length_append, List.length_cons] at hlen
    rw [hinput, List.length_append, List.length_singleton, sizeofInput] at hroom
    change 4095 ≤ stdin.length
    omega

theorem outcome_append (h : Good stdin s) (hc : s.c = some c) (c' : UInt8)
    {f : Scanner → Except Stop Scanner}
    (hf : ∀ t, Good stdin t → t.text = s.next.text → Outcome stdin (f t)) :
    Outcome stdin (s.append c' >>= fun t => t.nextchar >>= f) := by
  have hstring := h.string
  have hroom := h.room
  have happend : s.append c' = .ok { s with currentString := s.currentString ++ [c'] } :=
    if_pos (by simp only [sizeofInput, sizeofString] at *; omega)
  obtain ⟨before, hstdin, hinput⟩ := h.stored
  have hs := text_of_c hc
  rw [happend, ok_bind, Scanner.nextchar]
  split_ifs with hinner
  · refine hf _ ⟨⟨before ++ [c], ?_, ?_⟩, ?_, h.integer, ?_⟩ rfl
    · rw [hstdin, hs, List.append_assoc, List.singleton_append]
      rfl
    · rw [hc] at hinput
      rw [Scanner.next, hinput]
      rfl
    · simp only [Scanner.next, List.length_append, List.length_singleton]
      omega
    · simpa [Scanner.next] using hinner
  · have hlen := congrArg List.length hstdin
    rw [hs, List.length_append, List.length_cons] at hlen
    dsimp only at hinner
    rw [hinput, List.length_append, List.length_singleton, sizeofInput] at hinner
    change 4095 ≤ stdin.length
    omega

theorem outcome_terminate (h : Good stdin s) {f : Scanner → Except Stop Scanner}
    (hf : Outcome stdin (f s)) : Outcome stdin (s.terminate >>= f) := by
  have hstring := h.string
  have hroom := h.room
  rw [Scanner.terminate, if_pos (by simp only [sizeofInput, sizeofString] at *; omega)]
  exact hf

theorem clear (h : Good stdin s) : Good stdin { s with currentString := [] } :=
  ⟨h.stored, Nat.zero_lt_of_lt h.string, h.integer, h.room⟩

theorem found (h : Good stdin s) (token : Token) : Good stdin (s.found token) :=
  ⟨h.stored, h.string, h.integer, h.room⟩

theorem addDigit (h : Good stdin s) (base digit : ℕ) : Good stdin (s.addDigit base digit) :=
  ⟨h.stored, h.string, toLong_range _, h.room⟩

/-- A zero that nothing else follows. -/
theorem zero (h : Good stdin s) :
    Good stdin ({ s with currentInteger := 0 }.found .integer) :=
  ⟨h.stored, h.string, ⟨by simp [Scanner.found], by simp [Scanner.found]⟩, h.room⟩

theorem invalid (h : Good stdin s) (hc : s.c = some c) :
    Outcome stdin (.error (s.invalidCharacter c)) := by
  obtain ⟨before, hstdin, hinput⟩ := h.stored
  rw [hc, Option.getD_some] at hinput
  exact ⟨before, s.next.text, by rw [hstdin, text_of_c hc], report_right hinput _⟩

theorem unterminated (h : Good stdin s) (hc : s.c = none) :
    Outcome stdin (.error s.unterminatedString) := by
  obtain ⟨before, hstdin, hinput⟩ := h.stored
  have hs : s.text = [] := List.head?_eq_none_iff.mp hc
  rw [hs, List.append_nil] at hstdin
  rw [hc, Option.getD_none, ← hstdin] at hinput
  exact report_right hinput _

/-- What `required` comes to is a report, or the text was long. -/
theorem missing (h : Good stdin s) : Reports stdin (missing s) := by
  obtain ⟨before, hstdin, hinput⟩ := h.stored
  rw [Json.missing]
  split
  · rename_i e he
    obtain ⟨rfl, hlong⟩ := of_reportToken he h.integer.1 h.integer.2
    have hstring := h.string
    rw [hinput, List.length_append, List.length_singleton] at hstring
    have hlen : before.length ≤ stdin.length := by rw [hstdin, List.length_append]; omega
    change 4084 ≤ stdin.length
    omega
  · exact ⟨before, s.text, hstdin, report_right hinput _⟩

end Good

/-- The labels that are only reached with a character to take. -/
@[simp] def Ready : Label → Scanner → Prop
  | .eatWhitespace, s | .determineBase, s => s.text ≠ []
  | _, _ => True

/-- Jumps from a label on, when the text has no more characters. -/
@[simp] def jumps : Label → Scanner → ℕ
  | .startScan, s => if (s.sees isWhitespace).isSome then 3 else 2
  | .eatWhitespace, _ => 2
  | _, _ => 1

theorem length_next (hc : s.c = some c) : s.text.length = s.next.text.length + 1 := by
  rw [text_of_c hc, List.length_cons]

theorem c_of_sees {accepts : UInt8 → Bool} (h : s.sees accepts = some c) : s.c = some c :=
  (Option.filter_eq_some_iff.mp h).1

/-- A digit is taken, and the loop goes on behind it. -/
theorem Good.outcome_digit {accepts : UInt8 → Bool} (h : Good stdin s)
    (hc : s.sees accepts = some c) (base digit : ℕ) (hn : s.text.length ≤ n)
    (ih : ∀ t, Good stdin t → t.text.length + 1 ≤ n → Outcome stdin (scan n label t)) :
    Outcome stdin ((s.addDigit base digit).nextchar >>= scan n label) := by
  have hlen := length_next (c_of_sees hc)
  refine (h.addDigit base digit).outcome_nextchar (c_of_sees hc) fun hnext => ih _ hnext ?_
  simp only [Scanner.next, Scanner.addDigit] at *
  omega

/-- With some jumps the scanner ends, in a good state or with a right report, wherever they are
enough. -/
def Settles (stdin : List UInt8) (n : ℕ) : Prop :=
  ∀ ⦃s : Scanner⦄ ⦃label : Label⦄, Good stdin s → Ready label s →
    s.text.length + jumps label s ≤ n → Outcome stdin (scan n label s)

namespace Settles

theorem startScan (ih : Settles stdin n) (h : Good stdin s)
    (hn : s.text.length + jumps .startScan s ≤ n + 1) :
    Outcome stdin (scan (n + 1) .startScan s) := by
  rw [jumps] at hn
  rw [scan]
  split
  · exact h.found _
  · rename_i c hc
    have hlen := length_next hc
    by_cases hwhite : isWhitespace c
    · have hsees : (s.sees isWhitespace).isSome := by simp [Scanner.sees, hc, hwhite]
      rw [if_pos hsees] at hn
      rw [if_pos hwhite]
      exact ih h (by simp [text_of_c hc]) (by simp only [jumps]; omega)
    have hsees : ¬ (s.sees isWhitespace).isSome := by simp [Scanner.sees, hc, hwhite]
    rw [if_neg hsees] at hn
    rw [if_neg hwhite]
    by_cases hq : c = 34
    · rw [if_pos hq]
      exact h.clear.outcome_nextchar hc fun hnext => ih hnext trivial (by
        simp only [jumps, Scanner.next] at *
        omega)
    rw [if_neg hq]
    split
    · rename_i token _
      have := (h.found token).outcome_nextchar hc (f := pure) id
      rwa [bind_pure] at this
    · split_ifs
      · exact ih h (by simp [text_of_c hc]) (by simp only [jumps]; omega)
      · exact ih h trivial (by simp only [jumps]; omega)
      · exact ih h.clear trivial (by simp only [jumps]; omega)

theorem eatWhitespace (ih : Settles stdin n) (h : Good stdin s) (hready : Ready .eatWhitespace s)
    (hn : s.text.length + jumps .eatWhitespace s ≤ n + 1) :
    Outcome stdin (scan (n + 1) .eatWhitespace s) := by
  simp only [jumps] at hn
  obtain ⟨c, rest, hs⟩ := List.exists_cons_of_ne_nil hready
  have hc : s.c = some c := by rw [Scanner.c, hs, List.head?_cons]
  have hlen := length_next hc
  rw [scan]
  refine h.outcome_nextchar hc fun hnext => ?_
  split
  · rename_i c hc
    exact ih hnext (by simp [(of_sees hc).1]) (by simp only [jumps]; omega)
  · rename_i hnone
    refine ih hnext trivial ?_
    rw [jumps, hnone, if_neg (by simp)]
    omega

theorem recognizeDecimal (ih : Settles stdin n) (h : Good stdin s)
    (hn : s.text.length + jumps .recognizeDecimal s ≤ n + 1) :
    Outcome stdin (scan (n + 1) .recognizeDecimal s) := by
  simp only [jumps] at hn
  rw [scan]
  split
  · rename_i c hc
    exact h.outcome_digit hc 10 _ (by omega) fun t ht htn => ih ht trivial htn
  · exact h.found _

theorem recognizeHex (ih : Settles stdin n) (h : Good stdin s)
    (hn : s.text.length + jumps .recognizeHex s ≤ n + 1) :
    Outcome stdin (scan (n + 1) .recognizeHex s) := by
  simp only [jumps] at hn
  rw [scan]
  split
  · rename_i c hc
    exact h.outcome_digit hc 16 _ (by omega) fun t ht htn => ih ht trivial htn
  · exact h.found _

theorem recognizeOctal (ih : Settles stdin n) (h : Good stdin s)
    (hn : s.text.length + jumps .recognizeOctal s ≤ n + 1) :
    Outcome stdin (scan (n + 1) .recognizeOctal s) := by
  simp only [jumps] at hn
  rw [scan]
  split
  · rename_i c hc
    split_ifs
    · exact h.outcome_digit hc 8 _ (by omega) fun t ht htn => ih ht trivial htn
    · exact h.invalid (c_of_sees hc)
  · exact h.found _

theorem determineBase (ih : Settles stdin n) (h : Good stdin s) (hready : Ready .determineBase s)
    (hn : s.text.length + jumps .determineBase s ≤ n + 1) :
    Outcome stdin (scan (n + 1) .determineBase s) := by
  simp only [jumps] at hn
  obtain ⟨c, rest, hs⟩ := List.exists_cons_of_ne_nil hready
  have hc : s.c = some c := by rw [Scanner.c, hs, List.head?_cons]
  have hlen := length_next hc
  rw [scan]
  refine h.outcome_nextchar hc fun hnext => ?_
  split
  · rename_i d hd
    have hlen' := length_next hd
    split_ifs
    · exact hnext.outcome_nextchar hd fun hnext' => ih hnext' trivial (by
        simp only [jumps]
        omega)
    · exact ih hnext trivial (by simp only [jumps]; omega)
    · exact hnext.invalid hd
    · exact hnext.zero
  · exact hnext.zero

theorem recognizeString (ih : Settles stdin n) (h : Good stdin s)
    (hn : s.text.length + jumps .recognizeString s ≤ n + 1) :
    Outcome stdin (scan (n + 1) .recognizeString s) := by
  simp only [jumps] at hn
  rw [scan]
  split
  · rename_i hc
    exact h.unterminated hc
  · rename_i c hc
    have hlen := length_next hc
    split_ifs
    · exact h.outcome_terminate (h.outcome_nextchar hc fun hnext => hnext.found _)
    · exact h.outcome_nextchar hc fun hnext => ih hnext trivial (by simp only [jumps]; omega)
    · exact h.outcome_append hc c fun t ht htext => ih ht trivial (by
        simp only [jumps, htext]
        omega)

theorem recognizeMetachar (ih : Settles stdin n) (h : Good stdin s)
    (hn : s.text.length + jumps .recognizeMetachar s ≤ n + 1) :
    Outcome stdin (scan (n + 1) .recognizeMetachar s) := by
  simp only [jumps] at hn
  rw [scan]
  split
  · rename_i hc
    exact h.unterminated hc
  · rename_i c hc
    have hlen := length_next hc
    split
    · rename_i c' _
      exact h.outcome_append hc c' fun t ht htext => ih ht trivial (by
        simp only [jumps, htext]
        omega)
    · exact h.invalid hc

theorem recognizeIdentifier (ih : Settles stdin n) (h : Good stdin s)
    (hn : s.text.length + jumps .recognizeIdentifier s ≤ n + 1) :
    Outcome stdin (scan (n + 1) .recognizeIdentifier s) := by
  simp only [jumps] at hn
  rw [scan]
  split
  · rename_i c hc
    have hlen := length_next (c_of_sees hc)
    exact h.outcome_append (c_of_sees hc) c fun t ht htext => ih ht trivial (by
      simp only [jumps, htext]
      omega)
  · split
    · rename_i c hc
      split_ifs
      · exact h.invalid hc
      · exact h.outcome_terminate (h.found _)
    · exact h.outcome_terminate (h.found _)

end Settles

/-- The scanner ends on every text, in a good state or with a right report. -/
theorem scan_outcome (h : Good stdin s) (hready : Ready label s)
    (hn : s.text.length + jumps label s ≤ n) : Outcome stdin (scan n label s) := by
  induction n generalizing s label with
  | zero =>
    -- there is always a jump left
    cases label <;> simp only [jumps] at hn <;> (try split at hn) <;> omega
  | succ n ih =>
    have ih : Settles stdin n := fun _ _ => ih
    cases label with
    | startScan => exact ih.startScan h hn
    | eatWhitespace => exact ih.eatWhitespace h hready hn
    | recognizeDecimal => exact ih.recognizeDecimal h hn
    | recognizeHex => exact ih.recognizeHex h hn
    | recognizeOctal => exact ih.recognizeOctal h hn
    | determineBase => exact ih.determineBase h hready hn
    | recognizeString => exact ih.recognizeString h hn
    | recognizeMetachar => exact ih.recognizeMetachar h hn
    | recognizeIdentifier => exact ih.recognizeIdentifier h hn

end Redx.Json
