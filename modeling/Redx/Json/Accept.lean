import Redx.Json.Stops

/-!
# The texts that are accepted

The program returns for the texts that consist of the lexemes of a value and that fit the buffer
of the input. For any other text it stops with a report of how far it came.
-/
namespace Redx.Json
open Library Library.Source

variable {text : List UInt8} {s t u : Scanner} {c : UInt8} {ts : List Token} {n k : ℕ}

/-- What is left to do: the characters that are not read, and the token, if a value can have it. -/
def left (s : Scanner) : ℕ :=
  s.text.length + if s.currentToken = .endOfInput ∨ s.currentToken = .identifier then 0 else 1

theorem left_of_mem_tokens (h : s.currentToken ∈ tokens) : left s = s.text.length + 1 := by
  rw [left, if_neg (not_or.mpr h)]

theorem left_getNextToken (h : getNextToken s = .ok t) : left t ≤ s.text.length := by
  obtain ⟨ws, rest, hs, -, htook⟩ := of_getNextToken h
  rw [hs, List.length_append]
  cases htook with
  | done _ htext htoken => simp [left, htext, htoken]
  | lexeme hrest hlex =>
    obtain ⟨c, cs, rfl, -⟩ := hlex.head
    have hle : left t ≤ t.text.length + 1 := by
      rw [left]
      split <;> omega
    rw [hrest, List.length_append, List.length_cons]
    omega
  | nothing _ htext htoken =>
    rw [left, if_pos (.inr htoken), htext]
    omega

theorem getNextToken_outcome (h : Good text s) : Outcome text (getNextToken s) := by
  refine scan_outcome h trivial (Nat.add_le_add_left ?_ _)
  rw [jumps]
  split <;> omega

theorem descends (text : List UInt8) :
    source.Descends (Good text) (Reports text) left tokens where
  keeps s t hs h := by
    have := getNextToken_outcome hs
    rwa [show getNextToken s = .ok t from h] at this
  error s e hs h := by
    have := getNextToken_outcome hs
    rwa [show getNextToken s = .error e from h] at this
  lt s t hs h := by
    have hle := left_getNextToken h
    rw [left_of_mem_tokens hs]
    omega

theorem over_words {x : Symbol} : Over tokens (words x) := fun _ h => Derives.over h

theorem Good.parseError (h : Good text s) (place : String) : Reports text (parseError place s) := by
  obtain ⟨before, htext, hinput⟩ := h.stored
  exact ⟨before, s.text, htext, report_right hinput _⟩

section Reporting

variable {p value : Recogniser Scanner Stop} {first follow : Set Token} {L : Language Token}

/-- The recogniser stops with a right report only, given fuel for the text that is left. -/
abbrev Reporting (text : List UInt8) (p : Recogniser Scanner Stop) (n : ℕ) : Prop :=
  Library.Source.Ends (Good text) (Reports text) left p n

theorem reporting_token (a : Token) : Reporting text (token a) n :=
  Library.Source.Ends.token (descends text) a

theorem reporting_required (hp : Reporting text p n) (hpred : source.Predicts p first follow L k) :
    Reporting text (required p) n :=
  hp.required (fun s t h => (hpred.fails s t h).1) fun _ hs => hs.missing

/-- Behind something else there is not more left than before it. -/
theorem reporting_andThen {q : Recogniser Scanner Stop} (hp : Reporting text p n)
    (hq : Reporting text q n) (hpred : source.Predicts p first follow L k) (hL : Over tokens L) :
    Reporting text (p.andThen q) n := by
  refine hp.andThen hq fun s t hs hn h => ?_
  obtain ⟨ht, hle⟩ := hpred.le (descends text) hL hs h
  exact ⟨ht, Nat.lt_of_le_of_lt hle hn⟩

theorem over_token {a : Token} (ha : a ∈ tokens) : Over tokens ({[a]} : Language Token) := by
  rintro _ rfl b hb
  rwa [List.mem_singleton.mp hb]

theorem reporting_member (hv : Reporting text value n)
    (hpred : source.Predicts value first ∅ (words .value) n) :
    Reporting text (jsonMember value) n :=
  reporting_andThen (reporting_token _)
    (reporting_andThen (reporting_required (reporting_token _) (Predicts.token (n := n) _))
      (reporting_required hv hpred) (Predicts.token (n := n) _).required
      (over_token (by simp [tokens])))
    (Predicts.token (n := n) _) (over_token (by simp [tokens]))

/-- A list of items with commas. -/
theorem reporting_separated {x : Symbol} (hp : Reporting text p n)
    (hpred : source.Predicts p first ∅ (words x) n) :
    Reporting text (p.andThen (source.more .comma (parseError "trailing ,") exhausted p n)) n :=
  reporting_andThen hp
    (hp.more (descends text) (by simp [tokens])
      (fun _ _ _ hs h => hpred.le (descends text) over_words hs h) (fun _ hs => hs.parseError _)
      le_rfl)
    hpred over_words

theorem reporting_brackets {x : Symbol} (hp : Reporting text p n)
    (hpred : source.Predicts p first follow (words x) n) {a b : Token} (ha : a ∈ tokens) :
    Reporting text ((token a).andThen (p.optional.andThen (required (token b)))) (n + 1) := by
  have hrest : Reporting text (p.optional.andThen (required (token b))) n := by
    refine reporting_andThen hp.optional
      (reporting_required (reporting_token b) (Predicts.token (n := n) b)) hpred.optional ?_
    rintro ts (rfl | hts)
    · exact nofun
    · exact over_words ts hts
  refine (reporting_token a).andThen hrest fun s t hs hn h => ?_
  -- the bracket is one token less for what is inside
  obtain ⟨ts, rfl, hr⟩ := (Predicts.token (n := n) a).sound s t h
  have hle := (descends text).le hr (over_token ha [a] rfl)
  rw [List.length_singleton] at hle
  exact ⟨(descends text).reads hs hr, by omega⟩

theorem reporting_orElse {q : Recogniser Scanner Stop} (hp : Reporting text p n)
    (hq : Reporting text q n) (hpred : source.Predicts p first follow L k) :
    Reporting text (p.orElse q) n :=
  hp.orElse hq fun s t h => (hpred.fails s t h).1

theorem reporting_value (n : ℕ) : Reporting text (jsonValue n) n := by
  induction n with
  | zero => exact fun s e _ hn => absurd hn (Nat.not_lt_zero _)
  | succ n ih =>
    have hpred := predicts_value n
    have hobject : Reporting text (jsonObject (jsonValue n) n) (n + 1) :=
      reporting_brackets (reporting_separated (reporting_member ih hpred) (predicts_member hpred))
        (predicts_memberList hpred le_rfl) (by simp [tokens])
    have harray : Reporting text (jsonArray (jsonValue n) n) (n + 1) :=
      reporting_brackets (reporting_separated ih hpred) (predicts_list hpred le_rfl)
        (by simp [tokens])
    have htoken (a : Token) (q : Recogniser Scanner Stop) (hq : Reporting text q (n + 1)) :
        Reporting text ((token a).orElse q) (n + 1) :=
      reporting_orElse (reporting_token a) hq (Predicts.token (n := n) a)
    rw [jsonValue]
    refine reporting_orElse hobject ?_ (predicts_object hpred)
    refine reporting_orElse harray ?_ (predicts_array hpred (by simp [valueFirst]))
    refine htoken _ _ (reporting_orElse ?_ ?_ (predicts_boolean (n := n)))
    · exact htoken _ _ (reporting_token _)
    · exact htoken _ _ (reporting_token _)

end Reporting

/-! ### The program -/

/-- The scanner before the first token. -/
def atStart (text : List UInt8) : Scanner :=
  ⟨text, [text.head?.getD 255], .endOfInput, [], 0⟩

theorem initScanner_eq (text : List UInt8) : initScanner text = .ok (atStart text) := rfl

theorem good_atStart (text : List UInt8) : Good text (atStart text) :=
  ⟨⟨[], rfl, rfl⟩, Nat.one_pos, ⟨by simp [atStart], by simp [atStart]⟩,
    (by decide : 1 < sizeofInput)⟩

/-- `JSONText() && required( token(EOI) )` -/
def document (fuel : ℕ) : Recogniser Scanner Stop :=
  (jsonText fuel).andThen (required (token .endOfInput))

theorem predicts_document (n : ℕ) :
    source.Predicts (document n) Set.univ ∅ (words .value * {[.endOfInput]}) n :=
  (predicts_value n).required.andThen (Predicts.token _).required
    (fun _ _ => Set.mem_univ _) (.inl rfl)

theorem reporting_document (n : ℕ) : Reporting text (document n) n := by
  have hpred := predicts_value n
  have hvalue : Reporting text (jsonText n) n :=
    (reporting_value n).required (fun s t h => (hpred.fails s t h).1) fun _ hs => hs.parseError _
  exact reporting_andThen hvalue
    (reporting_required (reporting_token _) (Predicts.token (n := n) _)) hpred.required over_words

theorem parse_of_error {e : Stop} (h : getNextToken (atStart text) = .error e) :
    parse text = .error e := by
  rw [parse, initScanner_eq, ok_bind, h]
  rfl

theorem parse_of_ok (h : getNextToken (atStart text) = .ok s) :
    parse text = (document (text.length + 1) s).map Prod.snd := by
  rw [parse, initScanner_eq, ok_bind, h, ok_bind, document]
  cases (jsonText (text.length + 1)).andThen (required (token .endOfInput)) s <;> rfl

/-- What the program has recognised when it returns. -/
theorem of_parse (h : parse text = .ok t) :
    ∃ s u ts, getNextToken (atStart text) = .ok s ∧ Derives .value ts ∧ source.Reads s ts u ∧
      u.currentToken = .endOfInput ∧ getNextToken u = .ok t := by
  cases hs : getNextToken (atStart text) with
  | error e => rw [parse_of_error hs] at h; cases h
  | ok s =>
    rw [parse_of_ok hs] at h
    cases hd : document (text.length + 1) s with
    | error e => rw [hd] at h; cases h
    | ok p =>
      rw [hd] at h
      obtain ⟨b, t'⟩ := p
      obtain rfl := Except.ok.inj h
      cases b with
      | false => exact absurd (Set.mem_univ _) ((predicts_document _).fails s _ hd).2
      | true =>
        obtain ⟨_, hword, hr⟩ := (predicts_document _).sound s _ hd
        obtain ⟨ts, hts, _, rfl, rfl⟩ := Language.mem_mul.mp hword
        obtain ⟨u, hr, hru⟩ := hr.split
        obtain ⟨hu, t, ht, hr'⟩ := reads_cons.mp hru
        cases hr'
        exact ⟨s, u, ts, rfl, hts, hr, hu, ht⟩

theorem outcome_parse (text : List UInt8) : Outcome text (parse text) := by
  have hstart := good_atStart text
  have hout := getNextToken_outcome hstart
  cases h : parse text with
  | ok t =>
    obtain ⟨s, u, ts, hs, -, hr, -, ht⟩ := of_parse h
    have hgood := (descends text).reads ((descends text).keeps _ s hstart hs) hr
    exact (descends text).keeps u t hgood ht
  | error e =>
    cases hs : getNextToken (atStart text) with
    | error e' =>
      rw [parse_of_error hs] at h
      rw [hs] at hout
      exact Except.error.inj h ▸ hout
    | ok s =>
      rw [hs] at hout
      rw [parse_of_ok hs] at h
      cases hd : document (text.length + 1) s with
      | ok p => rw [hd] at h; cases h
      | error e' =>
        rw [hd] at h
        exact Except.error.inj h ▸
          reporting_document _ s e' hout (Nat.lt_succ_of_le (left_getNextToken hs)) hd

/-- Whatever the text is, the program comes to an end: it returns, it dies with a report that is
right, or the text is too long for a buffer. -/
theorem parse_outcome (text : List UInt8) :
    (∃ t, parse text = .ok t) ∨ ∃ e, parse text = .error e ∧ Reports text e := by
  have hout := outcome_parse text
  cases h : parse text with
  | ok t => exact .inl ⟨t, rfl⟩
  | error e =>
    rw [h] at hout
    exact .inr ⟨e, rfl, hout⟩

/-- The texts of values. -/
def IsJson (text : List UInt8) : Prop :=
  ∃ is, Lexes ⟨[], 0⟩ text is ∧ Derives .value (is.map Prod.fst)

theorem Lexeme.ne_endOfInput {cs : List UInt8} {a : Token} {f : Values → Values}
    {more : UInt8 → Bool} (h : Lexeme cs a f more) : a ≠ .endOfInput := by
  cases h with
  | punctuation h =>
    rintro rfl
    simp only [Json.punctuation] at h
    split_ifs at h <;> cases h
  | word =>
    simp only [checkForKeyword]
    split_ifs <;> nofun
  | _ => nofun

/-- The tokens that the scanner gave before the end of the text are those of lexemes. -/
theorem lexes_of_reads (hs : getNextToken s = .ok t) (hr : source.Reads t ts u)
    (hts : ∀ a ∈ ts, a ∈ tokens) (hu : u.currentToken = .endOfInput) :
    u.text = [] ∧ ∃ is, Lexes s.values s.text is ∧ is.map Prod.fst = ts := by
  induction ts generalizing s t with
  | nil =>
    cases hr
    obtain ⟨ws, rest, hs, hws, htook⟩ := of_getNextToken hs
    cases htook with
    | done hrest htext => exact ⟨htext, [], .done (by simpa [hs, hrest] using hws), rfl⟩
    | lexeme _ hlex => exact absurd hu hlex.ne_endOfInput
    | nothing _ _ htoken => exact absurd (hu.symm.trans htoken) nofun
  | cons a ts ih =>
    obtain ⟨ha, t', ht', hr⟩ := reads_cons.mp hr
    obtain ⟨ws, rest, hs, hws, htook⟩ := of_getNextToken hs
    have htoken : t.currentToken = a := ha
    obtain ⟨hna, hnb⟩ := hts a List.mem_cons_self
    cases htook with
    | done _ _ h => exact absurd (htoken.symm.trans h) hna
    | nothing _ _ h => exact absurd (htoken.symm.trans h) hnb
    | @lexeme cs f more hrest hlex hends hv =>
      obtain ⟨hutext, is, his, hmap⟩ := ih ht' hr fun b hb => hts b (List.mem_cons_of_mem _ hb)
      refine ⟨hutext, (t.currentToken, f s.values) :: is, ?_, ?_⟩
      · rw [hs, hrest]
        exact .token hws hlex hends (hv ▸ his)
      · rw [List.map_cons, hmap, htoken]

theorem reads_of_items {is : List (Token × Values)} (h : items.Reads s is t) :
    source.Reads s (is.map Prod.fst) t := by
  induction h with
  | done => exact .done
  | token hs _ ih => exact .token hs ih

/-- A scanner that has room for the text. -/
theorem looks_atStart (hlen : text.length + 1 < sizeofInput) : Looks (atStart text) text ⟨[], 0⟩ :=
  ⟨rfl, rfl, (Nat.add_comm _ _).trans_lt hlen, Nat.one_pos⟩

theorem parse_ok_iff :
    (∃ t, parse text = .ok t) ↔ text.length + 1 < sizeofInput ∧ IsJson text := by
  constructor
  · rintro ⟨t, h⟩
    obtain ⟨s, u, ts, hs, hts, hr, hu, ht⟩ := of_parse h
    have hgood := (descends text).reads ((descends text).keeps _ s (good_atStart text) hs) hr
    obtain ⟨hutext, is, his, rfl⟩ := lexes_of_reads hs hr hts.over hu
    refine ⟨?_, is, his, hts⟩
    obtain ⟨before, hbefore, hinput⟩ := hgood.stored
    have hroom := hgood.room
    rw [hutext, List.append_nil] at hbefore
    rwa [hinput, ← hbefore, List.length_append, List.length_singleton] at hroom
  · rintro ⟨hlen, is, his, hts⟩
    obtain ⟨s, u, hs, hr, hu, hutext⟩ := his.reads (looks_atStart hlen)
    have hend : getNextToken u = .ok (u.found .endOfInput) := by
      rw [getNextToken, scan, Scanner.c, hutext]
      rfl
    have hr := reads_of_items hr
    have hle := (descends text).le hr hts.over
    have hleft : left s ≤ text.length := left_getNextToken hs
    have hvalue : jsonText (text.length + 1) s = .ok (true, u) :=
      (predicts_value _).required.complete s _ u hts (by omega) hr id
    have hlast : required (token .endOfInput) u = .ok (true, u.found .endOfInput) :=
      (Predicts.token (n := 2) Token.endOfInput).required.complete u _ _ rfl Nat.one_lt_two
        (reads_cons.mpr ⟨hu, _, hend, .done⟩) id
    refine ⟨u.found .endOfInput, ?_⟩
    rw [parse_of_ok hs, document, Recogniser.andThen, hvalue]
    dsimp only
    rw [hlast]
    rfl

/-- The program returns just for the texts of values that are shorter than its buffer, and stops
for all others. -/
theorem parse_accepts (text : List UInt8) :
    ((∃ t, parse text = .ok t) ↔ text.length + 1 < sizeofInput ∧ IsJson text) ∧
      parse text ≠ .error .fuel := by
  refine ⟨parse_ok_iff, fun h => ?_⟩
  have hout := outcome_parse text
  rw [h] at hout
  exact hout

end Redx.Json
