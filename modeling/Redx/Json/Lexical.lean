import Redx.Json.Parser

/-!
# Lexemes

What the scanner takes for a token, in terms of the text: white space is skipped, a lexeme goes as
far as it can, and an integer is added to the digits of the one before.
-/
namespace Redx.Json
open Library Library.Source

/-- What the scanner says about a token: the string it is, and the integer. -/
structure Values where
  string : List UInt8
  integer : ℤ
  deriving DecidableEq, Repr

def Scanner.values (s : Scanner) : Values := ⟨s.currentString, s.currentInteger⟩

/-- The tokens with what the scanner says about each. -/
def items : Source Scanner (Token × Values) Stop :=
  ⟨fun s => (s.currentToken, s.values), getNextToken⟩

/-- The characters of a string literal, and the string it stands for. -/
inductive Body : List UInt8 → List UInt8 → Prop
  | nil : Body [] []
  | plain {c : UInt8} {cs content : List UInt8} : c ≠ 34 → c ≠ 92 → Body cs content →
      Body (c :: cs) (c :: content)
  | escape {c c' : UInt8} {cs content : List UInt8} : metachar c = some c' → Body cs content →
      Body (92 :: c :: cs) (c' :: content)

/-- Digits behind those of a number. -/
def addDigits (base : ℕ) (x : ℤ) (digits : List ℕ) : ℤ :=
  digits.foldl (fun (x : ℤ) (d : ℕ) => toLong (x * base + d)) x

def digit (c : UInt8) : ℕ := c.toNat - 48

/-- The characters of a token, what it does to the values, and which characters would have been
part of it. -/
inductive Lexeme : List UInt8 → Token → (Values → Values) → (UInt8 → Bool) → Prop
  | punctuation {c : UInt8} {t : Token} : punctuation c = some t → Lexeme [c] t id fun _ => false
  | string {cs content : List UInt8} : Body cs content →
      Lexeme (34 :: (cs ++ [34])) .string (fun v => { v with string := content }) fun _ => false
  | decimal {d : UInt8} {ds : List UInt8} : isDigit d → d ≠ 48 → (∀ c ∈ ds, isDigit c) →
      Lexeme (d :: ds) .integer
        (fun v => { v with integer := addDigits 10 v.integer ((d :: ds).map digit) }) isDigit
  | zero : Lexeme [48] .integer (fun v => { v with integer := 0 }) fun c => c = 120 || isDigit c
  | hexadecimal {ds : List UInt8} : (∀ c ∈ ds, isHexDigit c) →
      Lexeme (48 :: 120 :: ds) .integer
        (fun v => { v with integer := addDigits 16 v.integer (ds.map hexDigit) }) isHexDigit
  | octal {ds : List UInt8} : ds ≠ [] → (∀ c ∈ ds, isOctalDigit c) →
      Lexeme (48 :: ds) .integer
        (fun v => { v with integer := addDigits 8 v.integer (ds.map digit) }) isDigit
  | word {w : List UInt8} : w ≠ [] → (∀ c ∈ w, isLetter c) →
      Lexeme w (checkForKeyword w) (fun v => { v with string := w }) isLetter

/-- No lexeme that ends here could go on. -/
def Ends (more : UInt8 → Bool) (rest : List UInt8) : Prop := ∀ c ∈ rest.head?, more c = false

/-- The items that a text consists of. -/
inductive Lexes : Values → List UInt8 → List (Token × Values) → Prop
  | done {v : Values} {ws : List UInt8} : (∀ c ∈ ws, isWhitespace c) → Lexes v ws []
  | token {v : Values} {ws cs rest : List UInt8} {t : Token} {f : Values → Values}
      {more : UInt8 → Bool} {is : List (Token × Values)} : (∀ c ∈ ws, isWhitespace c) →
      Lexeme cs t f more → Ends more rest → Lexes (f v) rest is →
      Lexes v (ws ++ (cs ++ rest)) ((t, f v) :: is)

/-- The scanner has the text before it, and room for the rest of it and for what it takes from
it. -/
structure Looks (s : Scanner) (text : List UInt8) (v : Values) : Prop where
  text : s.text = text
  values : s.values = v
  fits : s.input.length + s.text.length < sizeofInput
  string : s.currentString.length < s.input.length

variable {s t : Scanner} {c : UInt8} {cs ds rest text content : List UInt8} {v : Values} {n : ℕ}
  {accepts : UInt8 → Bool} {token : Token}

namespace Looks

theorem char (h : Looks s text v) : s.c = text.head? := by rw [Scanner.c, h.text]

theorem sees_cons (h : Looks s (c :: rest) v) (hc : accepts c) : s.sees accepts = some c := by
  rw [Scanner.sees, h.char]
  simp [hc]

theorem sees_of_ends (h : Looks s rest v) (hrest : Ends accepts rest) : s.sees accepts = none := by
  rw [Scanner.sees, h.char, Option.filter_eq_none_iff]
  intro c hc
  simpa using hrest c hc

theorem nextchar (h : Looks s (c :: rest) v) : s.nextchar = .ok s.next ∧ Looks s.next rest v := by
  have hfits := h.fits
  have hstring := h.string
  rw [h.text, List.length_cons] at hfits
  refine ⟨if_pos (by omega), ?_, h.values, ?_, ?_⟩
  · rw [Scanner.next, h.text, List.tail_cons]
  · rw [Scanner.next, h.text, List.tail_cons]
    simp only [List.length_append, List.length_singleton]
    omega
  · simp only [Scanner.next, List.length_append, List.length_singleton]
    omega

theorem found (h : Looks s text v) (token : Token) : Looks (s.found token) text v :=
  ⟨h.text, h.values, h.fits, h.string⟩

theorem addDigit (h : Looks s text v) (base digit : ℕ) :
    Looks (s.addDigit base digit) text
      { v with integer := toLong (v.integer * base + digit) } := by
  refine ⟨h.text, ?_, h.fits, h.string⟩
  rw [← h.values]
  rfl

theorem clear (h : Looks s text v) :
    Looks { s with currentString := [] } text { v with string := [] } := by
  refine ⟨h.text, ?_, h.fits, Nat.zero_lt_of_lt h.string⟩
  rw [← h.values]
  rfl

theorem terminate (h : Looks s text v) : s.terminate = .ok s := by
  have hfits := h.fits
  have hstring := h.string
  exact if_pos (by simp only [sizeofInput, sizeofString] at *; omega)

/-- A character of a string, and the next one of the text. -/
theorem append (h : Looks s (c :: rest) v) (c' : UInt8) :
    ∃ t, (do let s ← s.append c'; s.nextchar) = .ok t ∧
      Looks t rest { v with string := v.string ++ [c'] } := by
  have hfits := h.fits
  have hstring := h.string
  rw [h.text, List.length_cons] at hfits
  have happend : s.append c' = .ok { s with currentString := s.currentString ++ [c'] } :=
    if_pos (by simp only [sizeofInput, sizeofString] at *; omega)
  refine ⟨{ s with currentString := s.currentString ++ [c'] }.next, ?_, ?_, ?_, ?_, ?_⟩
  · rw [happend]
    exact if_pos (by simp only [sizeofInput] at *; omega)
  · simp [Scanner.next, h.text]
  · rw [← h.values]
    rfl
  · simp only [Scanner.next, h.text, List.tail_cons, List.length_append, List.length_singleton]
    omega
  · simp only [Scanner.next, List.length_append, List.length_singleton]
    omega

end Looks

/-! ### What a lexeme makes of the scanner -/

theorem ok_bind {α β ε : Type} (a : α) (f : α → Except ε β) : (Except.ok a >>= f) = f a := rfl

theorem scan_whitespace {ws : List UInt8} (h : Looks s (c :: (ws ++ text)) v)
    (hws : ∀ c ∈ ws, isWhitespace c) (htext : Ends isWhitespace text) (n : ℕ) :
    ∃ t, Looks t text v ∧
      scan (n + ws.length + 1) .eatWhitespace s = scan n .startScan t := by
  induction ws generalizing s c with
  | nil =>
    obtain ⟨hnext, ht⟩ := h.nextchar
    refine ⟨s.next, ht, ?_⟩
    rw [scan, hnext, ok_bind, ht.sees_of_ends htext]
    rfl
  | cons w ws ih =>
    obtain ⟨hnext, ht⟩ := h.nextchar
    obtain ⟨t, ht', hscan⟩ := ih ht fun c hc => hws c (List.mem_cons_of_mem _ hc)
    refine ⟨t, ht', ?_⟩
    rw [scan, hnext, ok_bind, ht.sees_cons (hws w List.mem_cons_self)]
    exact hscan

/-- A loop over digits: what it does with a digit, and where it stops. -/
theorem scan_digits {label : Label} {base : ℕ} {value : UInt8 → ℕ} {more : UInt8 → Bool}
    (hstep : ∀ n s c, s.c = some c → accepts c →
      scan (n + 1) label s = (s.addDigit base (value c)).nextchar.bind (scan n label))
    (hstop : ∀ n s, s.sees more = none → scan (n + 1) label s = .ok (s.found .integer))
    (h : Looks s (ds ++ rest) v) (hds : ∀ c ∈ ds, accepts c) (hrest : Ends more rest)
    (hn : ds.length < n) :
    ∃ t, scan n label s = .ok t ∧ t.currentToken = .integer ∧
      Looks t rest { v with integer := addDigits base v.integer (ds.map value) } := by
  obtain ⟨n, rfl⟩ := Nat.exists_eq_add_one.mpr (Nat.zero_lt_of_lt hn)
  induction ds generalizing s v n with
  | nil => exact ⟨_, hstop n s (h.sees_of_ends hrest), rfl, h.found _⟩
  | cons d ds ih =>
    obtain ⟨hnext, ht⟩ := (h.addDigit base (value d)).nextchar
    obtain ⟨n, rfl⟩ := Nat.exists_eq_add_one.mpr (Nat.zero_lt_of_lt (Nat.lt_of_succ_lt_succ hn))
    obtain ⟨t, hscan, htoken, ht⟩ :=
      ih ht (fun c hc => hds c (List.mem_cons_of_mem _ hc)) n (Nat.lt_of_succ_lt_succ hn)
    refine ⟨t, ?_, htoken, ht⟩
    rw [hstep _ s d h.char (hds d List.mem_cons_self), hnext]
    exact hscan

theorem scan_string {cs : List UInt8} (h : Looks s (cs ++ 34 :: rest) v) (hcs : Body cs content)
    (hn : cs.length < n) :
    ∃ t, scan n .recognizeString s = .ok t ∧ t.currentToken = .string ∧
      Looks t rest { v with string := v.string ++ content } := by
  induction hcs generalizing s v n with
  | nil =>
    obtain ⟨n, rfl⟩ := Nat.exists_eq_add_one.mpr hn
    obtain ⟨hnext, ht⟩ := h.nextchar
    refine ⟨s.next.found .string, ?_, rfl, ?_⟩
    · rw [scan, h.char, List.nil_append, List.head?_cons]
      dsimp only
      rw [if_pos rfl, h.terminate, ok_bind, hnext]
      rfl
    · rw [List.append_nil]
      exact ht.found _
  | @plain c cs content hq hb _ ih =>
    obtain ⟨n, rfl⟩ := Nat.exists_eq_add_one.mpr (Nat.zero_lt_of_lt hn)
    obtain ⟨t, happend, ht⟩ := h.append c
    obtain ⟨u, hscan, htoken, hu⟩ := ih ht (Nat.lt_of_succ_lt_succ hn)
    refine ⟨u, ?_, htoken, by simpa using hu⟩
    rw [scan, h.char, List.cons_append, List.head?_cons]
    dsimp only
    rw [if_neg hq, if_neg hb, ← hscan, ← ok_bind t (scan n .recognizeString), ← happend,
      bind_assoc]
  | @escape c c' cs content hc _ ih =>
    obtain ⟨n, rfl⟩ := Nat.exists_eq_add_one.mpr (Nat.zero_lt_of_lt hn)
    obtain ⟨n, rfl⟩ := Nat.exists_eq_add_one.mpr (Nat.zero_lt_of_lt (Nat.lt_of_succ_lt_succ hn))
    rw [List.cons_append, List.cons_append] at h
    obtain ⟨hnext, ht⟩ := h.nextchar
    obtain ⟨t, happend, ht'⟩ := ht.append c'
    obtain ⟨u, hscan, htoken, hu⟩ := ih ht' (Nat.lt_of_succ_lt_succ (Nat.lt_of_succ_lt_succ hn))
    refine ⟨u, ?_, htoken, by simpa using hu⟩
    rw [scan, h.char, List.head?_cons]
    dsimp only
    rw [if_neg (by decide), if_pos rfl, hnext, ok_bind, scan, ht.char, List.head?_cons]
    dsimp only
    rw [hc]
    dsimp only
    rw [← hscan, ← ok_bind t (scan n .recognizeString), ← happend, bind_assoc]

theorem scan_word (h : Looks s (cs ++ rest) v) (hcs : ∀ c ∈ cs, isLetter c)
    (hrest : Ends isLetter rest) (hv : v.string ++ cs ≠ []) (hn : cs.length < n) :
    ∃ t, scan n .recognizeIdentifier s = .ok t ∧
      t.currentToken = checkForKeyword (v.string ++ cs) ∧
      Looks t rest { v with string := v.string ++ cs } := by
  induction cs generalizing s v n with
  | nil =>
    obtain ⟨n, rfl⟩ := Nat.exists_eq_add_one.mpr hn
    rw [List.append_nil] at hv
    have hstring : s.currentString = v.string := congrArg Values.string h.values
    refine ⟨s.found (checkForKeyword s.currentString), ?_, by rw [List.append_nil, ← hstring]; rfl,
      by rw [List.append_nil]; exact h.found _⟩
    rw [scan, h.sees_of_ends hrest]
    dsimp only
    cases s.c with
    | none =>
      dsimp only
      rw [h.terminate]
      rfl
    | some c =>
      dsimp only
      rw [if_neg (fun hc => hv (hstring ▸ hc.2)), h.terminate]
      rfl
  | cons c cs ih =>
    obtain ⟨n, rfl⟩ := Nat.exists_eq_add_one.mpr (Nat.zero_lt_of_lt hn)
    obtain ⟨t, happend, ht⟩ := h.append c
    obtain ⟨u, hscan, htoken, hu⟩ := ih ht (fun c hc => hcs c (List.mem_cons_of_mem _ hc))
      (by simp) (Nat.lt_of_succ_lt_succ hn)
    refine ⟨u, ?_, by simpa using htoken, by simpa using hu⟩
    rw [scan, h.sees_cons (hcs c List.mem_cons_self)]
    dsimp only
    rw [← hscan, ← ok_bind t (scan n .recognizeIdentifier), ← happend, bind_assoc]

/-! ### The kinds of characters -/

theorem of_punctuation (h : punctuation c = some token) : isWhitespace c = false ∧ c ≠ 34 := by
  have hall : ∀ c : Fin 256, (punctuation (UInt8.ofFin c)).isSome →
      isWhitespace (UInt8.ofFin c) = false ∧ UInt8.ofFin c ≠ 34 := by decide +kernel
  exact hall c.toFin (Option.isSome_iff_exists.mpr ⟨token, h⟩)

theorem of_isDigit (h : isDigit c) :
    isWhitespace c = false ∧ c ≠ 34 ∧ punctuation c = none := by
  have hall : ∀ c : Fin 256, isDigit (UInt8.ofFin c) →
      isWhitespace (UInt8.ofFin c) = false ∧ UInt8.ofFin c ≠ 34 ∧
        punctuation (UInt8.ofFin c) = none := by decide +kernel
  exact hall c.toFin h

theorem of_isLetter (h : isLetter c) :
    isWhitespace c = false ∧ c ≠ 34 ∧ punctuation c = none ∧ isDigit c = false := by
  have hall : ∀ c : Fin 256, isLetter (UInt8.ofFin c) →
      isWhitespace (UInt8.ofFin c) = false ∧ UInt8.ofFin c ≠ 34 ∧
        punctuation (UInt8.ofFin c) = none ∧ isDigit (UInt8.ofFin c) = false := by decide +kernel
  exact hall c.toFin h

theorem isDigit_of_isOctalDigit (h : isOctalDigit c) : isDigit c ∧ c ≠ 120 := by
  have hall : ∀ c : Fin 256, isOctalDigit (UInt8.ofFin c) →
      isDigit (UInt8.ofFin c) ∧ UInt8.ofFin c ≠ 120 := by decide +kernel
  exact hall c.toFin h

theorem Lexeme.head {f : Values → Values} {more : UInt8 → Bool} (h : Lexeme cs token f more) :
    ∃ c cs', cs = c :: cs' ∧ isWhitespace c = false := by
  cases h with
  | punctuation h => exact ⟨_, [], rfl, (of_punctuation h).1⟩
  | string => exact ⟨34, _, rfl, by decide⟩
  | decimal hd => exact ⟨_, _, rfl, (of_isDigit hd).1⟩
  | zero | hexadecimal | octal => exact ⟨48, _, rfl, by decide⟩
  | word hw hl =>
    obtain ⟨c, w, rfl⟩ := List.exists_cons_of_ne_nil hw
    exact ⟨c, w, rfl, (of_isLetter (hl c List.mem_cons_self)).1⟩

/-! ### One token -/

theorem scan_startScan (h : Looks s (c :: rest) v) (hc : isWhitespace c = false) :
    scan (n + 1) .startScan s =
      if c = 34 then (do let s ← { s with currentString := [] }.nextchar; scan n .recognizeString s)
      else
        match punctuation c with
        | some token => (s.found token).nextchar
        | none =>
          if c = 48 then scan n .determineBase s
          else if isDigit c then scan n .recognizeDecimal s
          else scan n .recognizeIdentifier { s with currentString := [] } := by
  rw [scan, h.char, List.head?_cons]
  exact if_neg (by simp [hc])

theorem scan_startScan_whitespace (h : Looks s (c :: rest) v) (hc : isWhitespace c) :
    scan (n + 1) .startScan s = scan n .eatWhitespace s := by
  rw [scan, h.char, List.head?_cons]
  dsimp only
  rw [if_pos hc]

theorem scan_octal (h : Looks s (ds ++ rest) v) (hds : ∀ c ∈ ds, isOctalDigit c)
    (hrest : Ends isDigit rest) (hn : ds.length < n) :
    ∃ t, scan n .recognizeOctal s = .ok t ∧ t.currentToken = .integer ∧
      Looks t rest { v with integer := addDigits 8 v.integer (ds.map digit) } := by
  refine scan_digits (fun n s c hs hc => ?_) (fun n s hs => ?_) h hds hrest hn
  · have hsees : s.sees isDigit = some c := by
      rw [Scanner.sees, hs, Option.filter_some, if_pos (isDigit_of_isOctalDigit hc).1]
    rw [scan, hsees]
    dsimp only
    rw [if_pos hc]
    rfl
  · rw [scan, hs]

theorem scan_decimal (h : Looks s (ds ++ rest) v) (hds : ∀ c ∈ ds, isDigit c)
    (hrest : Ends isDigit rest) (hn : ds.length < n) :
    ∃ t, scan n .recognizeDecimal s = .ok t ∧ t.currentToken = .integer ∧
      Looks t rest { v with integer := addDigits 10 v.integer (ds.map digit) } := by
  refine scan_digits (fun n s c hs hc => ?_) (fun n s hs => ?_) h hds hrest hn
  · have hsees : s.sees isDigit = some c := by rw [Scanner.sees, hs, Option.filter_some, if_pos hc]
    rw [scan, hsees]
    rfl
  · rw [scan, hs]

theorem scan_hex (h : Looks s (ds ++ rest) v) (hds : ∀ c ∈ ds, isHexDigit c)
    (hrest : Ends isHexDigit rest) (hn : ds.length < n) :
    ∃ t, scan n .recognizeHex s = .ok t ∧ t.currentToken = .integer ∧
      Looks t rest { v with integer := addDigits 16 v.integer (ds.map hexDigit) } := by
  refine scan_digits (fun n s c hs hc => ?_) (fun n s hs => ?_) h hds hrest hn
  · have hsees : s.sees isHexDigit = some c := by
      rw [Scanner.sees, hs, Option.filter_some, if_pos hc]
    rw [scan, hsees]
    rfl
  · rw [scan, hs]

/-- A zero leads to `determine_base`, which looks at what is behind it. -/
theorem scan_zero (h : Looks s (48 :: rest) v) :
    scan (n + 2) .startScan s =
      match rest.head? with
      | some c =>
        if c = 120 then (do let s ← s.next.nextchar; scan n .recognizeHex s)
        else if isOctalDigit c then scan n .recognizeOctal s.next
        else if isDigit c then .error (s.next.invalidCharacter c)
        else .ok ({ s.next with currentInteger := 0 }.found .integer)
      | none => .ok ({ s.next with currentInteger := 0 }.found .integer) := by
  obtain ⟨hnext, ht⟩ := h.nextchar
  rw [scan_startScan h (by decide), if_neg (by decide), show punctuation 48 = none from by decide]
  dsimp only
  rw [if_pos rfl, scan, hnext, ok_bind]
  exact ht.char ▸ rfl

/-- From the label `start_scan` on, a lexeme gives its token. -/
theorem scan_lexeme {f : Values → Values} {more : UInt8 → Bool} (h : Looks s (cs ++ rest) v)
    (hlex : Lexeme cs token f more) (hrest : Ends more rest) :
    ∃ t, scan (cs.length + 2 + n) .startScan s = .ok t ∧ t.currentToken = token ∧
      Looks t rest (f v) := by
  rw [Nat.add_right_comm]
  cases hlex with
  | @punctuation c _ hc =>
    obtain ⟨hw, hq⟩ := of_punctuation hc
    obtain ⟨hnext, ht⟩ := (h.found token).nextchar
    refine ⟨_, ?_, rfl, ht⟩
    rw [scan_startScan h hw, if_neg hq, hc]
    exact hnext
  | @string cs content hcs =>
    rw [List.cons_append, List.append_assoc, List.singleton_append] at h
    obtain ⟨hnext, ht⟩ := h.clear.nextchar
    obtain ⟨t, hscan, htoken, ht⟩ := scan_string (n := cs.length + 2 + n + 1) ht hcs (by omega)
    refine ⟨t, ?_, htoken, ht⟩
    rw [scan_startScan h (by decide), if_pos rfl, hnext, ok_bind, ← hscan]
    simp only [List.length_cons, List.length_append, List.length_nil]
  | @decimal d ds hd h0 hds =>
    obtain ⟨hw, hq, hp⟩ := of_isDigit hd
    obtain ⟨t, hscan, htoken, ht⟩ :=
      scan_decimal h (List.forall_mem_cons.mpr ⟨hd, hds⟩) hrest (n := ds.length + 1 + n + 1)
        (by rw [List.length_cons]; omega)
    refine ⟨t, ?_, htoken, ht⟩
    rw [scan_startScan h hw, if_neg hq, hp]
    dsimp only
    rw [if_neg h0, if_pos hd]
    exact hscan
  | zero =>
    have h : Looks s (48 :: rest) v := h
    refine ⟨{ s.next with currentInteger := 0 }.found .integer, ?_, rfl, ?_⟩
    · rw [scan_zero h]
      cases rest with
      | nil => rfl
      | cons c rest =>
        have hc : c ≠ 120 ∧ isDigit c = false := by simpa [Ends] using hrest
        have hoctal : ¬ isOctalDigit c :=
          fun h => absurd (isDigit_of_isOctalDigit h).1 (by simp [hc.2])
        rw [List.head?_cons]
        dsimp only
        rw [if_neg hc.1, if_neg hoctal, if_neg (by simp [hc.2])]
    · obtain ⟨-, ht⟩ := h.nextchar
      refine ⟨ht.text, ?_, ht.fits, ht.string⟩
      rw [← ht.values]
      rfl
  | @hexadecimal ds hds =>
    have h : Looks s (48 :: 120 :: (ds ++ rest)) v := h
    obtain ⟨-, ht⟩ := h.nextchar
    obtain ⟨hnext, ht'⟩ := ht.nextchar
    obtain ⟨t, hscan, htoken, ht⟩ := scan_hex (n := ds.length + 2 + n) ht' hds hrest (by omega)
    refine ⟨t, ?_, htoken, ht⟩
    rw [scan_zero h, List.head?_cons]
    dsimp only
    rw [if_pos rfl, hnext, ok_bind, ← hscan]
    simp only [List.length_cons]
  | @octal ds hne hds =>
    obtain ⟨c, ds, rfl⟩ := List.exists_cons_of_ne_nil hne
    have h : Looks s (48 :: c :: (ds ++ rest)) v := h
    obtain ⟨-, ht⟩ := h.nextchar
    have hc := hds c List.mem_cons_self
    obtain ⟨t, hscan, htoken, ht⟩ :=
      scan_octal (n := (c :: ds).length + 1 + n) ht hds hrest (by omega)
    refine ⟨t, ?_, htoken, ht⟩
    rw [scan_zero h, List.head?_cons]
    dsimp only
    rw [if_neg (isDigit_of_isOctalDigit hc).2, if_pos hc, ← hscan]
    congr 1
  | @word w hw hl =>
    obtain ⟨c, w, rfl⟩ := List.exists_cons_of_ne_nil hw
    obtain ⟨hwhite, hq, hp, hd⟩ := of_isLetter (hl c List.mem_cons_self)
    obtain ⟨t, hscan, htoken, ht⟩ :=
      scan_word h.clear hl hrest (by simp) (n := (c :: w).length + n + 1) (by omega)
    refine ⟨t, ?_, htoken, ht⟩
    rw [scan_startScan h hwhite, if_neg hq, hp]
    dsimp only
    rw [if_neg (fun h0 => absurd (h0 ▸ hd) (by decide)), if_neg (by simp [hd])]
    exact hscan

/-- `get_next_token` skips white space and takes one lexeme. -/
theorem getNextToken_lexeme {ws : List UInt8} {f : Values → Values} {more : UInt8 → Bool}
    (h : Looks s (ws ++ (cs ++ rest)) v) (hws : ∀ c ∈ ws, isWhitespace c)
    (hlex : Lexeme cs token f more) (hrest : Ends more rest) :
    ∃ t, getNextToken s = .ok t ∧ t.currentToken = token ∧ Looks t rest (f v) := by
  rw [getNextToken, h.text, List.length_append, List.length_append]
  cases ws with
  | nil =>
    have h : Looks s (cs ++ rest) v := h
    obtain ⟨t, hscan, ht⟩ := scan_lexeme (n := rest.length + 1) h hlex hrest
    refine ⟨t, ?_, ht⟩
    rw [← hscan]
    congr 1
    rw [List.length_nil]
    omega
  | cons w ws =>
    rw [List.forall_mem_cons] at hws
    obtain ⟨c, cs, rfl, hc⟩ := hlex.head
    obtain ⟨u, hu, hwhite⟩ := scan_whitespace h hws.2 (by simpa [Ends] using hc)
      ((c :: cs).length + 2 + rest.length)
    obtain ⟨t, hscan, ht⟩ := scan_lexeme (n := rest.length) hu hlex hrest
    refine ⟨t, ?_, ht⟩
    rw [← hscan, ← hwhite, ← scan_startScan_whitespace h hws.1]
    congr 1
    simp only [List.length_cons]
    omega

theorem getNextToken_done (h : Looks s text v) (hws : ∀ c ∈ text, isWhitespace c) :
    ∃ t, getNextToken s = .ok t ∧ t.currentToken = .endOfInput ∧ Looks t [] v := by
  rw [getNextToken, h.text]
  have hend (u : Scanner) (hu : Looks u [] v) (n : ℕ) :
      scan (n + 1) .startScan u = .ok (u.found .endOfInput) := by
    rw [scan, hu.char]
    rfl
  cases text with
  | nil => exact ⟨_, hend s h 2, rfl, h.found _⟩
  | cons w ws =>
    rw [List.forall_mem_cons] at hws
    have h' : Looks s (w :: (ws ++ [])) v := by rwa [List.append_nil]
    obtain ⟨u, hu, hwhite⟩ := scan_whitespace h' hws.2 nofun 2
    refine ⟨_, ?_, rfl, hu.found .endOfInput⟩
    rw [← hend u hu 1, ← hwhite, ← scan_startScan_whitespace h' hws.1]
    congr 1
    rw [List.length_cons]
    omega

/-- A scanner that has room for the text gives the items that the text consists of. -/
theorem Lexes.reads {is : List (Token × Values)} (hl : Lexes v text is) (h : Looks s text v) :
    ∃ t u, getNextToken s = .ok t ∧ items.Reads t is u ∧ u.currentToken = .endOfInput ∧
      u.text = [] := by
  induction hl generalizing s with
  | done hws =>
    obtain ⟨t, ht, htoken, hlooks⟩ := getNextToken_done h hws
    exact ⟨t, t, ht, .done, htoken, hlooks.text⟩
  | @token v ws cs rest token f more is hws hlex hrest _ ih =>
    obtain ⟨t, ht, htoken, hlooks⟩ := getNextToken_lexeme h hws hlex hrest
    obtain ⟨t', u, ht', hr, hu⟩ := ih hlooks
    have hitem : (token, f v) = items.current t := Prod.ext htoken.symm hlooks.values.symm
    exact ⟨t, u, ht, hitem ▸ .token ht' hr, hu⟩

end Redx.Json
