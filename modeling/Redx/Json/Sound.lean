import Redx.Json.Lexical

/-!
# What the scanner took

Whenever `get_next_token` returns, the text in front of the one it left is white space and a
lexeme, which could not have gone on; or the token is an identifier without characters, for which
nothing is taken from the text.
-/
namespace Redx.Json
open Library Library.Source

variable {s t : Scanner} {c : UInt8} {n : ℕ} {label : Label}

theorem of_bind {α β ε : Type} {x : Except ε α} {f : α → Except ε β} {b : β}
    (h : (x >>= f) = .ok b) : ∃ a, x = .ok a ∧ f a = .ok b := by
  cases x with
  | error e => cases h
  | ok a => exact ⟨a, rfl, h⟩

theorem of_nextchar (h : s.nextchar = .ok t) : t = s.next := by
  rw [Scanner.nextchar] at h
  split at h
  · exact (Except.ok.inj h).symm
  · cases h

theorem of_append (h : s.append c = .ok t) :
    t = { s with currentString := s.currentString ++ [c] } := by
  rw [Scanner.append] at h
  split at h
  · exact (Except.ok.inj h).symm
  · cases h

theorem of_terminate (h : s.terminate = .ok t) : t = s := by
  rw [Scanner.terminate] at h
  split at h
  · exact (Except.ok.inj h).symm
  · cases h

theorem text_of_c (h : s.c = some c) : s.text = c :: s.next.text := by
  obtain ⟨rest, hs⟩ := List.head?_eq_some_iff.mp h
  rw [Scanner.next, hs, List.tail_cons]

theorem of_sees {accepts : UInt8 → Bool} (h : s.sees accepts = some c) :
    s.text = c :: s.next.text ∧ accepts c := by
  rw [Scanner.sees, Option.filter_eq_some_iff] at h
  exact ⟨text_of_c h.1, h.2⟩

theorem ends_of_sees {accepts : UInt8 → Bool} (h : s.sees accepts = none) :
    Ends accepts s.text := by
  intro c hc
  simpa using Option.filter_eq_none_iff.mp h c hc

/-- A loop over digits takes them all. -/
theorem of_scan_digits {base : ℕ} {value : UInt8 → ℕ} {accepts more : UInt8 → Bool}
    (hstep : ∀ n s t, scan (n + 1) label s = .ok t →
      (∃ c, s.text = c :: s.next.text ∧ accepts c ∧
        scan n label (s.addDigit base (value c)).next = .ok t) ∨
      (Ends more s.text ∧ t = s.found .integer))
    (h : scan n label s = .ok t) :
    ∃ ds, s.text = ds ++ t.text ∧ (∀ c ∈ ds, accepts c) ∧ Ends more t.text ∧
      t.currentToken = .integer ∧
      t.values = { s.values with integer := addDigits base s.currentInteger (ds.map value) } := by
  induction n generalizing s with
  | zero => simp at h
  | succ n ih =>
    rcases hstep n s t h with ⟨c, hs, hc, h⟩ | ⟨hends, rfl⟩
    · obtain ⟨ds, hds, hall, hends, htoken, hv⟩ := ih h
      refine ⟨c :: ds, ?_, List.forall_mem_cons.mpr ⟨hc, hall⟩, hends, htoken, hv⟩
      rw [hs, List.cons_append, ← hds]
      rfl
    · exact ⟨[], rfl, nofun, hends, rfl, rfl⟩

theorem of_scan_decimal (h : scan n .recognizeDecimal s = .ok t) :
    ∃ ds, s.text = ds ++ t.text ∧ (∀ c ∈ ds, isDigit c) ∧ Ends isDigit t.text ∧
      t.currentToken = .integer ∧
      t.values = { s.values with integer := addDigits 10 s.currentInteger (ds.map digit) } := by
  refine of_scan_digits (fun n s t h => ?_) h
  rw [scan] at h
  split at h
  · rename_i c hc
    obtain ⟨hs, hc⟩ := of_sees hc
    obtain ⟨u, hu, h⟩ := of_bind h
    exact .inl ⟨c, hs, hc, of_nextchar hu ▸ h⟩
  · rename_i hnone
    exact .inr ⟨ends_of_sees hnone, (Except.ok.inj h).symm⟩

theorem of_scan_hex (h : scan n .recognizeHex s = .ok t) :
    ∃ ds, s.text = ds ++ t.text ∧ (∀ c ∈ ds, isHexDigit c) ∧ Ends isHexDigit t.text ∧
      t.currentToken = .integer ∧
      t.values = { s.values with integer := addDigits 16 s.currentInteger (ds.map hexDigit) } := by
  refine of_scan_digits (fun n s t h => ?_) h
  rw [scan] at h
  split at h
  · rename_i c hc
    obtain ⟨hs, hc⟩ := of_sees hc
    obtain ⟨u, hu, h⟩ := of_bind h
    exact .inl ⟨c, hs, hc, of_nextchar hu ▸ h⟩
  · rename_i hnone
    exact .inr ⟨ends_of_sees hnone, (Except.ok.inj h).symm⟩

theorem of_scan_octal (h : scan n .recognizeOctal s = .ok t) :
    ∃ ds, s.text = ds ++ t.text ∧ (∀ c ∈ ds, isOctalDigit c) ∧ Ends isDigit t.text ∧
      t.currentToken = .integer ∧
      t.values = { s.values with integer := addDigits 8 s.currentInteger (ds.map digit) } := by
  refine of_scan_digits (fun n s t h => ?_) h
  rw [scan] at h
  split at h
  · rename_i c hc
    split_ifs at h with hoctal
    · obtain ⟨u, hu, h⟩ := of_bind h
      exact .inl ⟨c, (of_sees hc).1, hoctal, of_nextchar hu ▸ h⟩
  · rename_i hnone
    exact .inr ⟨ends_of_sees hnone, (Except.ok.inj h).symm⟩

/-- The characters up to the closing quote are those of a literal. -/
theorem of_scan_string (h : scan n .recognizeString s = .ok t) :
    ∃ cs content, s.text = cs ++ 34 :: t.text ∧ Body cs content ∧ t.currentToken = .string ∧
      t.values = { s.values with string := s.currentString ++ content } := by
  induction n using Nat.strongRecOn generalizing s with
  | ind n ih =>
    cases n with
    | zero => simp at h
    | succ n =>
      rw [scan] at h
      split at h
      · cases h
      · rename_i c hc
        have hs := text_of_c hc
        split_ifs at h with hq hb
        · obtain ⟨u, hu, h⟩ := of_bind h
          obtain ⟨w, hw, h⟩ := of_bind h
          obtain rfl := of_terminate hu
          obtain rfl := of_nextchar hw
          obtain rfl := Except.ok.inj h
          refine ⟨[], [], hq ▸ hs, .nil, rfl, ?_⟩
          rw [List.append_nil]
          rfl
        · obtain ⟨u, hu, h⟩ := of_bind h
          obtain rfl := of_nextchar hu
          cases n with
          | zero => simp at h
          | succ n =>
            rw [scan] at h
            split at h
            · cases h
            · rename_i d hd
              split at h
              · rename_i d' hd'
                obtain ⟨u, hu, h⟩ := of_bind h
                obtain ⟨w, hw, h⟩ := of_bind h
                obtain rfl := of_append hu
                obtain rfl := of_nextchar hw
                obtain ⟨cs, content, hcs, hbody, htoken, hv⟩ := ih n (by omega) h
                refine ⟨92 :: d :: cs, d' :: content, ?_, .escape hd' hbody, htoken, ?_⟩
                · rw [hs, hb, text_of_c hd, List.cons_append, List.cons_append, ← hcs]
                  rfl
                · rw [hv]
                  simp [Scanner.values, Scanner.next]
              · cases h
        · obtain ⟨u, hu, h⟩ := of_bind h
          obtain ⟨w, hw, h⟩ := of_bind h
          obtain rfl := of_append hu
          obtain rfl := of_nextchar hw
          obtain ⟨cs, content, hcs, hbody, htoken, hv⟩ := ih n (by omega) h
          refine ⟨c :: cs, c :: content, ?_, .plain hq hb hbody, htoken, ?_⟩
          · rw [hs, List.cons_append, ← hcs]
            rfl
          · rw [hv]
            simp [Scanner.values, Scanner.next]

theorem of_scan_word (h : scan n .recognizeIdentifier s = .ok t) :
    ∃ w, s.text = w ++ t.text ∧ (∀ c ∈ w, isLetter c) ∧ Ends isLetter t.text ∧
      t.currentToken = checkForKeyword (s.currentString ++ w) ∧
      t.values = { s.values with string := s.currentString ++ w } := by
  induction n generalizing s with
  | zero => simp at h
  | succ n ih =>
    rw [scan] at h
    split at h
    · rename_i c hc
      obtain ⟨hs, hc⟩ := of_sees hc
      obtain ⟨u, hu, h⟩ := of_bind h
      obtain ⟨w, hw, h⟩ := of_bind h
      obtain rfl := of_append hu
      obtain rfl := of_nextchar hw
      obtain ⟨w, hw, hall, hends, htoken, hv⟩ := ih h
      refine ⟨c :: w, ?_, List.forall_mem_cons.mpr ⟨hc, hall⟩, hends, ?_, ?_⟩
      · rw [hs, List.cons_append, ← hw]
        rfl
      · rw [htoken]
        simp [Scanner.next]
      · rw [hv]
        simp [Scanner.values, Scanner.next]
    · rename_i hnone
      have hend : t = s.found (checkForKeyword s.currentString) := by
        split at h
        · split_ifs at h
          obtain ⟨u, hu, h⟩ := of_bind h
          exact of_terminate hu ▸ (Except.ok.inj h).symm
        · obtain ⟨u, hu, h⟩ := of_bind h
          exact of_terminate hu ▸ (Except.ok.inj h).symm
      subst hend
      refine ⟨[], rfl, nofun, ends_of_sees hnone, ?_, ?_⟩ <;> rw [List.append_nil] <;> rfl

/-- White space is skipped before a token is looked for. -/
theorem of_scan_whitespace (h : scan n .eatWhitespace s = .ok t) :
    ∃ ws u m, s.next.text = ws ++ u.text ∧ (∀ c ∈ ws, isWhitespace c) ∧
      Ends isWhitespace u.text ∧ u.values = s.values ∧ scan m .startScan u = .ok t := by
  induction n generalizing s with
  | zero => simp at h
  | succ n ih =>
    rw [scan] at h
    obtain ⟨u, hu, h⟩ := of_bind h
    rw [of_nextchar hu] at h
    split at h
    · rename_i c hc
      obtain ⟨hs, hc⟩ := of_sees hc
      obtain ⟨ws, u, m, hws, hall, hends, hv, h⟩ := ih h
      refine ⟨c :: ws, u, m, ?_, List.forall_mem_cons.mpr ⟨hc, hall⟩, hends, hv, h⟩
      rw [hs, List.cons_append, ← hws]
    · rename_i hnone
      exact ⟨[], s.next, n, rfl, List.forall_mem_nil _, ends_of_sees hnone, rfl, h⟩

/-- What the scanner took off a text for its token. -/
inductive Took (v : Values) (text : List UInt8) (t : Scanner) : Prop
  | done : text = [] → t.text = [] → t.currentToken = .endOfInput → t.values = v → Took v text t
  | lexeme {cs : List UInt8} {f : Values → Values} {more : UInt8 → Bool} :
      text = cs ++ t.text → Lexeme cs t.currentToken f more → Ends more t.text →
      t.values = f v → Took v text t
  | nothing : text ≠ [] → t.text = text → t.currentToken = .identifier → Took v text t

theorem took_of_word {v : Values} (h : scan n .recognizeIdentifier s = .ok t)
    (hstring : s.currentString = []) (hv : { v with string := [] } = s.values)
    (hs : s.text ≠ []) : Took v s.text t := by
  obtain ⟨w, hw, hall, hends, htoken, hvalues⟩ := of_scan_word h
  rw [hstring, List.nil_append] at htoken hvalues
  by_cases hne : w = []
  · subst hne
    exact .nothing hs hw.symm htoken
  · refine .lexeme hw (htoken ▸ Lexeme.word hne hall) hends ?_
    rw [hvalues, ← hv]

theorem took_of_decimal {v : Values} (h : scan n .recognizeDecimal s = .ok t)
    (hc : s.c = some c) (hd : isDigit c) (h0 : c ≠ 48) (hv : v = s.values) : Took v s.text t := by
  obtain ⟨ds, hds, hall, hends, htoken, hvalues⟩ := of_scan_decimal h
  have hs := text_of_c hc
  cases ds with
  | nil =>
    rw [List.nil_append] at hds
    exact absurd (hends c (hds ▸ hc)) (by simp [hd])
  | cons d ds =>
    obtain ⟨rfl, -⟩ := List.cons.inj (hs.symm.trans hds)
    subst hv
    rw [List.forall_mem_cons] at hall
    exact .lexeme hds (htoken ▸ Lexeme.decimal hd h0 hall.2) hends hvalues

theorem took_of_base {v : Values} (h : scan n .determineBase s = .ok t)
    (hc : s.c = some 48) (hv : v = s.values) : Took v s.text t := by
  have hs := text_of_c hc
  cases n with
  | zero => simp at h
  | succ n =>
    rw [scan] at h
    obtain ⟨u, hu, h⟩ := of_bind h
    rw [of_nextchar hu] at h
    -- a zero that nothing else follows
    have hzero (hends : Ends (fun c => c = 120 || isDigit c) s.next.text)
        (h : Except.ok ({ s.next with currentInteger := 0 }.found .integer) =
          (Except.ok t : Except Stop Scanner)) : Took v s.text t := by
      obtain rfl := Except.ok.inj h
      exact .lexeme hs Lexeme.zero hends (by rw [hv]; rfl)
    split at h
    · rename_i c hnext
      have hs' := text_of_c hnext
      by_cases hx : c = 120
      · rw [if_pos hx] at h
        obtain ⟨w, hw, h⟩ := of_bind h
        rw [of_nextchar hw] at h
        obtain ⟨ds, hds, hall, hends, htoken, hvalues⟩ := of_scan_hex h
        have htext : s.text = (48 :: 120 :: ds) ++ t.text := by
          rw [hs, hs', hx, hds]
          rfl
        refine .lexeme htext (htoken ▸ Lexeme.hexadecimal hall) hends ?_
        rw [hvalues, hv]
        rfl
      rw [if_neg hx] at h
      by_cases hoctal : isOctalDigit c
      · rw [if_pos hoctal] at h
        obtain ⟨ds, hds, hall, hends, htoken, hvalues⟩ := of_scan_octal h
        have htext : s.text = (48 :: ds) ++ t.text := by
          rw [hs, hds]
          rfl
        have hne : ds ≠ [] := by
          rintro rfl
          rw [List.nil_append] at hds
          exact absurd (hends c (hds ▸ hnext)) (by simp [(isDigit_of_isOctalDigit hoctal).1])
        refine .lexeme htext (htoken ▸ Lexeme.octal hne hall) hends ?_
        rw [hvalues, hv]
        rfl
      rw [if_neg hoctal] at h
      by_cases hd : isDigit c
      · rw [if_pos hd] at h
        cases h
      rw [if_neg hd] at h
      refine hzero (fun x hx' => ?_) h
      obtain rfl := Option.some.inj (hnext.symm.trans hx')
      simp [hx, hd]
    · rename_i hnext
      refine hzero (fun x hx' => ?_) h
      exact absurd (hnext.symm.trans hx') (Option.some_ne_none x).symm

theorem took_of_scan (h : scan n .startScan s = .ok t) (hends : Ends isWhitespace s.text) :
    Took s.values s.text t := by
  cases n with
  | zero => simp at h
  | succ n =>
    rw [scan] at h
    split at h
    · rename_i hc
      obtain rfl := Except.ok.inj h
      have hs : s.text = [] := List.head?_eq_none_iff.mp hc
      exact .done hs hs rfl rfl
    · rename_i c hc
      have hs := text_of_c hc
      have hwhite : isWhitespace c = false := hends c hc
      rw [if_neg (by simp [hwhite])] at h
      by_cases hq : c = 34
      · rw [if_pos hq] at h
        obtain ⟨u, hu, h⟩ := of_bind h
        rw [of_nextchar hu] at h
        obtain ⟨cs, content, hcs, hbody, htoken, hv⟩ := of_scan_string h
        have htext : s.text = (34 :: (cs ++ [34])) ++ t.text := by
          rw [hs, hq, List.cons_append, List.append_assoc, List.singleton_append, ← hcs]
          rfl
        exact .lexeme htext (htoken ▸ Lexeme.string hbody) (fun _ _ => rfl) hv
      rw [if_neg hq] at h
      split at h
      · rename_i token hp
        obtain rfl := of_nextchar h
        exact .lexeme hs (.punctuation hp) (fun _ _ => rfl) rfl
      · by_cases h0 : c = 48
        · rw [if_pos h0] at h
          exact took_of_base h (h0 ▸ hc) rfl
        rw [if_neg h0] at h
        by_cases hd : isDigit c
        · rw [if_pos hd] at h
          exact took_of_decimal h hc hd h0 rfl
        rw [if_neg hd] at h
        exact took_of_word (s := { s with currentString := [] }) h rfl rfl
          (by rw [hs]; exact List.cons_ne_nil _ _)

/-- What `get_next_token` returns is found behind white space. -/
theorem of_getNextToken (h : getNextToken s = .ok t) :
    ∃ ws text, s.text = ws ++ text ∧ (∀ c ∈ ws, isWhitespace c) ∧ Took s.values text t := by
  rw [getNextToken] at h
  by_cases hends : Ends isWhitespace s.text
  · exact ⟨[], s.text, rfl, List.forall_mem_nil _, took_of_scan h hends⟩
  · obtain ⟨c, hc, hwhite⟩ : ∃ c ∈ s.text.head?, ¬ isWhitespace c = false := by
      simpa [Ends] using hends
    rw [scan, show s.c = some c from hc] at h
    dsimp only at h
    rw [if_pos (by simpa using hwhite)] at h
    obtain ⟨ws, u, m, hws, hall, hends, hv, h⟩ := of_scan_whitespace h
    refine ⟨c :: ws, u.text, ?_, List.forall_mem_cons.mpr ⟨by simpa using hwhite, hall⟩,
      hv ▸ took_of_scan h hends⟩
    rw [text_of_c hc, List.cons_append, hws]

end Redx.Json
