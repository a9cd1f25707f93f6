import Redx.Library.Decimal
import Mathlib.Data.List.TakeWhile

/-!
# Formatted input

`fscanf` follows the directives of a format up to the first that does not match. The character
that does not match stays in the stream, so that a format that begins with a number takes nothing
but white space from a text in which something else comes first, and otherwise gets on.
-/
namespace Redx.Library

/-- The characters still to read, and whether a read has come to the end. -/
structure Input where
  text : List UInt8
  eof : Bool
  deriving DecidableEq, Repr

/-- What a conversion stores. -/
inductive Item where
  | number (value : ℤ)
  | text (chars : List UInt8)
  deriving DecidableEq, Repr

/-- White space, a character of the format, `%d`, `%X` and `%64[...]`. -/
inductive Directive where
  | blanks
  | literal (c : UInt8)
  | decimal
  | hexadecimal
  | set (width : ℕ) (accepts : UInt8 → Bool)

/-- What comes of a directive; `ended` is an input failure. -/
inductive Scanned where
  | matched (items : List Item) (rest : Input)
  | mismatch (rest : Input)
  | ended (rest : Input)

/-- What comes of a format. -/
structure Scan where
  items : List Item
  ended : Bool
  rest : Input

def isHexDigit (c : UInt8) : Bool := isDigit c || (65 ≤ c && c ≤ 70) || (97 ≤ c && c ≤ 102)

/-- The value of a hexadecimal digit. -/
def hexDigit (c : UInt8) : ℕ :=
  if c ≤ 57 then c.toNat - 48 else if c ≤ 70 then c.toNat - 55 else c.toNat - 87

def ofHexadecimal (digits : List UInt8) : ℕ := digits.foldl (fun n c => 16 * n + hexDigit c) 0

/-- `strtoul`: the largest number where the digits stand for more than a long holds. -/
def strtoul (negative : Bool) (n : ℕ) : ℕ :=
  if 2 ^ 64 ≤ n then 2 ^ 64 - 1 else if negative then (2 ^ 64 - n) % 2 ^ 64 else n

namespace Input

/-- Read on while the characters are accepted; the next one is put back. -/
def read (accepts : UInt8 → Bool) (s : Input) : List UInt8 × Input :=
  (s.text.takeWhile accepts,
    ⟨s.text.dropWhile accepts, s.eof || (s.text.dropWhile accepts).isEmpty⟩)

/-- The same with a field width, after which no other character is read. -/
def readUpTo (width : ℕ) (accepts : UInt8 → Bool) (s : Input) : List UInt8 × Input :=
  let chars := (s.text.take width).takeWhile accepts
  if chars.length = width then (chars, ⟨s.text.drop width, s.eof⟩) else s.read accepts

def sign (s : Input) : Bool × Input :=
  match s.text with
  | 43 :: rest => (false, ⟨rest, s.eof⟩)
  | 45 :: rest => (true, ⟨rest, s.eof⟩)
  | _ => (false, s)

/-- The `0x` or `0X` that `%X` allows. -/
def hexPrefix (s : Input) : Input :=
  match s.text with
  | 48 :: 120 :: rest => ⟨rest, s.eof⟩
  | 48 :: 88 :: rest => ⟨rest, s.eof⟩
  | _ => s

/-- `fgets` with a buffer of `size`, without the line that it stores; `none` is a null pointer. -/
def fgets (size : ℕ) (s : Input) : Option Input :=
  let line := s.text.takeWhile (· ≠ 10)
  if s.text = [] then none
  else if size - 1 ≤ line.length then some ⟨s.text.drop (size - 1), s.eof⟩
  else if line.length < s.text.length then some ⟨s.text.drop (line.length + 1), s.eof⟩
  else some ⟨[], true⟩

end Input

/-- A number of the digits accepted, after white space and a sign. -/
def scanNumber (strip : Input → Input) (accepts : UInt8 → Bool) (value : Bool → List UInt8 → ℤ)
    (s : Input) : Scanned :=
  let s := (s.read isBlank).2
  if s.text = [] then .ended s
  else
    let (negative, s) := s.sign
    let (digits, s) := (strip s).read accepts
    if digits = [] then .mismatch s else .matched [.number (value negative digits)] s

def Directive.scan : Directive → Input → Scanned
  | .blanks, s => .matched [] (s.read isBlank).2
  | .literal c, s =>
    match s.text with
    | [] => .ended ⟨[], true⟩
    | b :: rest => if b = c then .matched [] ⟨rest, s.eof⟩ else .mismatch s
  | .decimal, s =>
    scanNumber id isDigit (fun negative digits =>
      if negative then -(ofDecimal digits : ℤ) else ofDecimal digits) s
  | .hexadecimal, s =>
    scanNumber Input.hexPrefix isHexDigit (fun negative digits =>
      (strtoul negative (ofHexadecimal digits) : ℤ)) s
  | .set width accepts, s =>
    if s.text = [] then .ended ⟨[], true⟩
    else
      let (chars, s) := s.readUpTo width accepts
      if chars = [] then .mismatch s else .matched [.text chars] s

/-- `fscanf` -/
def fscanf : List Directive → Input → Scan
  | [], s => ⟨[], false, s⟩
  | d :: format, s =>
    match d.scan s with
    | .matched items rest =>
      let later := fscanf format rest
      ⟨items ++ later.items, later.ended, later.rest⟩
    | .mismatch rest => ⟨[], false, rest⟩
    | .ended rest => ⟨[], true, rest⟩

/-- The value that `fscanf` returns; -1 is `EOF`. -/
def Scan.result (scan : Scan) : ℤ :=
  if scan.items = [] ∧ scan.ended = true then -1 else scan.items.length

def Scanned.rest : Scanned → Input
  | .matched _ rest => rest
  | .mismatch rest => rest
  | .ended rest => rest

/-- Behind white space comes neither a number nor the end. -/
def Input.Rejects (s : Input) : Prop :=
  ∃ c rest, s.text.dropWhile isBlank = c :: rest ∧ isDigit c = false ∧ c ≠ 43 ∧ c ≠ 45

/-- Nothing is put back that was read before, and the end of the text stays known. -/
structure Input.Leads (s t : Input) : Prop where
  length : t.text.length ≤ s.text.length
  eof : s.eof = true → t.eof = true

variable {s t u : Input} {accepts : UInt8 → Bool} {width : ℕ} {format : List Directive}

namespace Input

theorem Leads.refl (s : Input) : s.Leads s := ⟨Nat.le_refl _, id⟩

theorem Leads.trans (h : s.Leads t) (h' : t.Leads u) : s.Leads u :=
  ⟨Nat.le_trans h'.length h.length, fun he => h'.eof (h.eof he)⟩

theorem read_leads : s.Leads (s.read accepts).2 where
  length := List.length_dropWhile_le accepts s.text
  eof := fun h => by simp [read, h]

theorem readUpTo_leads : s.Leads (s.readUpTo width accepts).2 := by
  unfold readUpTo
  dsimp only
  split
  · exact ⟨by simp, id⟩
  · exact read_leads

theorem sign_leads : s.Leads s.sign.2 := by
  unfold sign
  split
  · rename_i rest h
    exact ⟨by rw [h]; exact Nat.le_succ _, id⟩
  · rename_i rest h
    exact ⟨by rw [h]; exact Nat.le_succ _, id⟩
  · exact .refl s

theorem hexPrefix_leads : s.Leads s.hexPrefix := by
  unfold hexPrefix
  split
  · rename_i rest h
    exact ⟨by rw [h]; exact Nat.le_add_right _ 2, id⟩
  · rename_i rest h
    exact ⟨by rw [h]; exact Nat.le_add_right _ 2, id⟩
  · exact .refl s

end Input

/-- Where a number leaves the stream, whether it matches or not. -/
theorem scanNumber_rest (strip : Input → Input) (value : Bool → List UInt8 → ℤ) :
    (scanNumber strip accepts value s).rest =
      if s.text.dropWhile isBlank = [] then (s.read isBlank).2
      else ((strip (s.read isBlank).2.sign.2).read accepts).2 := by
  unfold scanNumber
  dsimp only
  split
  · rename_i h
    have h : s.text.dropWhile isBlank = [] := h
    rw [if_pos h]
    rfl
  · rename_i h
    have h : s.text.dropWhile isBlank ≠ [] := h
    rw [if_neg h]
    split <;> rfl

theorem scanNumber_leads {strip : Input → Input} {value : Bool → List UInt8 → ℤ}
    (hstrip : ∀ s : Input, s.Leads (strip s)) :
    s.Leads (scanNumber strip accepts value s).rest := by
  rw [scanNumber_rest]
  split
  · exact Input.read_leads
  · exact Input.read_leads.trans (Input.sign_leads.trans ((hstrip _).trans Input.read_leads))

theorem Directive.scan_leads (d : Directive) : s.Leads (d.scan s).rest := by
  cases d with
  | blanks => exact Input.read_leads
  | literal c =>
    rw [Directive.scan]
    split
    · exact ⟨Nat.zero_le _, fun _ => rfl⟩
    · rename_i b rest h
      split
      · exact ⟨by rw [h]; exact Nat.le_succ _, id⟩
      · exact .refl s
  | decimal =>
    rw [Directive.scan]
    exact scanNumber_leads Input.Leads.refl
  | hexadecimal =>
    rw [Directive.scan]
    exact scanNumber_leads fun _ => Input.hexPrefix_leads
  | set width accepts =>
    have hchars : s.Leads (s.readUpTo width accepts).2 := Input.readUpTo_leads
    rw [Directive.scan]
    split
    · exact ⟨Nat.zero_le _, fun _ => rfl⟩
    · dsimp only
      split
      · exact hchars
      · exact hchars

theorem fscanf_cons_leads (d : Directive) (format : List Directive)
    (h : ∀ s : Input, s.Leads (fscanf format s).rest) :
    (d.scan s).rest.Leads (fscanf (d :: format) s).rest := by
  rw [fscanf]
  cases d.scan s with
  | matched items rest => exact h rest
  | mismatch rest => exact .refl rest
  | ended rest => exact .refl rest

theorem fscanf_leads (format : List Directive) (s : Input) : s.Leads (fscanf format s).rest := by
  induction format generalizing s with
  | nil => exact .refl s
  | cons d format ih => exact d.scan_leads.trans (fscanf_cons_leads d format ih)

namespace Input

theorem read_lt {c : UInt8} {rest : List UInt8} (h : s.text = c :: rest) (hc : accepts c = true) :
    (s.read accepts).2.text.length < s.text.length := by
  change (s.text.dropWhile accepts).length < s.text.length
  rw [h, List.dropWhile_cons_of_pos hc]
  exact Nat.lt_succ_of_le (List.length_dropWhile_le accepts rest)

theorem sign_lt {c : UInt8} {rest : List UInt8} (h : s.text = c :: rest) (hc : c = 43 ∨ c = 45) :
    s.sign.2.text.length < s.text.length := by
  unfold sign
  rw [h]
  rcases hc with rfl | rfl
  · exact Nat.lt_succ_self _
  · exact Nat.lt_succ_self _

theorem sign_eq {c : UInt8} {rest : List UInt8} (h : s.text = c :: rest) (h43 : c ≠ 43)
    (h45 : c ≠ 45) : s.sign = (false, s) := by
  unfold sign
  split
  · rename_i h'
    exact absurd (List.cons.inj (h.symm.trans h')).1 h43
  · rename_i h'
    exact absurd (List.cons.inj (h.symm.trans h')).1 h45
  · rfl

end Input

/-- A text that begins with a number gets shorter, and at the end of a text the end is known. -/
theorem decimal_advances (h : ¬ s.Rejects) :
    (Directive.decimal.scan s).rest.eof = true ∨
      (Directive.decimal.scan s).rest.text.length < s.text.length := by
  have hblanks := List.length_dropWhile_le isBlank s.text
  rw [Directive.scan, scanNumber_rest]
  split
  · rename_i hnil
    exact .inl (by simp [Input.read, hnil])
  · rename_i hne
    refine .inr ?_
    generalize ht : (s.read isBlank).2 = t
    have htext : t.text = s.text.dropWhile isBlank := ht ▸ rfl
    obtain ⟨c, rest, hc⟩ := List.exists_cons_of_ne_nil hne
    have hsign : t.Leads t.sign.2 := Input.sign_leads
    have hread : t.sign.2.Leads (t.sign.2.read isDigit).2 := Input.read_leads
    refine Nat.lt_of_lt_of_le ?_ hblanks
    rw [← htext]
    by_cases hs : c = 43 ∨ c = 45
    · exact Nat.lt_of_le_of_lt hread.length (Input.sign_lt (htext.trans hc) hs)
    · obtain ⟨h43, h45⟩ := not_or.mp hs
      have hdigit : isDigit c = true := by
        by_contra hdigit
        exact h ⟨c, rest, hc, by simpa using hdigit, h43, h45⟩
      rw [id, Input.sign_eq (htext.trans hc) h43 h45]
      exact Input.read_lt (htext.trans hc) hdigit

/-- A format that begins with a number gets on. -/
theorem fscanf_advances (h : ¬ s.Rejects) :
    (fscanf (.decimal :: format) s).rest.eof = true ∨
      (fscanf (.decimal :: format) s).rest.text.length < s.text.length := by
  have hlater : (Directive.decimal.scan s).rest.Leads (fscanf (.decimal :: format) s).rest :=
    fscanf_cons_leads _ _ (fscanf_leads format)
  rcases decimal_advances h with heof | hlt
  · exact .inl (hlater.eof heof)
  · exact .inr (Nat.lt_of_le_of_lt hlater.length hlt)

/-- Of a text that begins with something else it takes the white space. -/
theorem fscanf_rejects (h : s.Rejects) :
    fscanf (.decimal :: format) s = ⟨[], false, ⟨s.text.dropWhile isBlank, s.eof⟩⟩ := by
  obtain ⟨c, rest, hc, hdigit, h43, h45⟩ := h
  have hblanks : (s.read isBlank).2 = ⟨c :: rest, s.eof⟩ := by
    simp [Input.read, hc]
  have hdigits : Input.read isDigit ⟨c :: rest, s.eof⟩ = ([], ⟨c :: rest, s.eof⟩) := by
    simp [Input.read, hdigit]
  have hscan : Directive.decimal.scan s = .mismatch ⟨c :: rest, s.eof⟩ := by
    rw [Directive.scan, scanNumber, hblanks]
    dsimp only
    rw [if_neg (List.cons_ne_nil _ _), Input.sign_eq rfl h43 h45]
    exact (if_pos (congrArg Prod.fst hdigits)).trans
      (congrArg (fun r : List UInt8 × Input => Scanned.mismatch r.2) hdigits)
  rw [fscanf, hscan, hc]

/-- And then it begins with that still. -/
theorem Input.Rejects.skipped (h : s.Rejects) :
    Input.Rejects ⟨s.text.dropWhile isBlank, s.eof⟩ := by
  obtain ⟨c, rest, hc, hdigit⟩ := h
  have hblank : isBlank c = false := by
    have h := List.head?_dropWhile_not isBlank s.text
    rwa [hc] at h
  exact ⟨c, rest, by rw [hc]; exact List.dropWhile_cons_of_neg (by simp [hblank]), hdigit⟩

end Redx.Library
