import Redx.Library.Scanf
import Mathlib.Algebra.Group.Int.Defs

/-!
# Looking for a listening socket

`Interface::is_listening_to` scans the lines of a file of `/proc/net` until the end of the file is
known or a socket matches. A scan that takes nothing is made again, and takes nothing again.
-/
namespace Redx.Interface
open Library

/-- The words of a `struct in6_addr`. -/
abbrev Words := Fin 4 → UInt32

/-- `[^\n]` -/
def notNewline (c : UInt8) : Bool := c ≠ 10

/-- `"%d: %64[0-9A-Fa-f]:%X %64[0-9A-Fa-f]:%X %X %lX:%lX %X:%lX %lX %d %d %ld %512[^\n]\n"` -/
def format : List Directive := [.decimal, .literal 58, .blanks,
  .set 64 isHexDigit, .literal 58, .hexadecimal, .blanks,
  .set 64 isHexDigit, .literal 58, .hexadecimal, .blanks, .hexadecimal, .blanks,
  .hexadecimal, .literal 58, .hexadecimal, .blanks,
  .hexadecimal, .literal 58, .hexadecimal, .blanks, .hexadecimal, .blanks,
  .decimal, .blanks, .decimal, .blanks, .decimal, .blanks, .set 512 notNewline, .blanks]

/-- `sscanf` of an address with `"%08X%08X%08X%08X"`; a word without digits stays as it is. -/
def readWords (address : List UInt8) (in6 : Words) : Words := fun i =>
  let digits := (address.drop (8 * i.val)).take 8
  if digits = [] then in6 i else UInt32.ofNat (ofHexadecimal digits)

/-- The tests on the fields of a line: whether its socket is the one looked for, and `in6`
afterwards. -/
def check (primary : Words) (port : UInt16) (in6 : Words) (scan : Scan) : Bool × Words :=
  if scan.result ≠ 15 then (false, in6)
  else
    match scan.items with
    | _ :: .text localAddress :: .number localPort :: _ =>
      if localPort % 2 ^ 32 ≠ port.toNat then (false, in6)
      else if localAddress.length < 9 then (false, in6)
      else
        let in6 := readWords localAddress in6
        (decide (∀ i, in6 i = primary i), in6)
    | _ => (false, in6)

/-- The loop: one unit of fuel for each test of `feof`. -/
def scanLoop (primary : Words) (port : UInt16) : ℕ → Input → Words → Option Bool
  | 0, _, _ => none
  | fuel + 1, f, in6 =>
    if f.eof then some false
    else
      let scan := fscanf format f
      match check primary port in6 scan with
      | (true, _) => some true
      | (false, in6) => scanLoop primary port fuel scan.rest in6

/-- `Interface::is_listening_to`; there is no content when `fopen` fails, and `in6` is what was on
the stack. -/
def isListeningTo (primary : Words) (port : UInt16) (in6 : Words) (fuel : ℕ)
    (content : Option (List UInt8)) : Option Bool :=
  match content with
  | none => some false
  | some text =>
    match Input.fgets 512 ⟨text, false⟩ with
    | none => some false
    | some f => scanLoop primary port fuel f in6

/-- The places where a scan begins: behind the first line, and where a scan ended that did not
find the socket. -/
inductive Begins (primary : Words) (port : UInt16) (f : Input) (in6 : Words) :
    Input → Words → Prop
  | first : Begins primary port f in6 f in6
  | next {g : Input} {words words' : Words} : Begins primary port f in6 g words →
      g.eof = false → check primary port words (fscanf format g) = (false, words') →
      Begins primary port f in6 (fscanf format g).rest words'

/-- Each scan begins, behind white space, with a number, or there is nothing left. -/
def Scannable (primary : Words) (port : UInt16) (in6 : Words) (content : Option (List UInt8)) :
    Prop :=
  ∀ text f g words, content = some text → Input.fgets 512 ⟨text, false⟩ = some f →
    Begins primary port f in6 g words → g.eof = false → ¬ g.Rejects

variable {primary in6 words : Words} {port : UInt16} {f g : Input} {fuel : ℕ}

/-- A scan that begins with something else is made for ever. -/
theorem scanLoop_rejects (heof : f.eof = false) (h : f.Rejects) :
    scanLoop primary port fuel f in6 = none := by
  induction fuel generalizing f with
  | zero => rfl
  | succ fuel ih =>
    have hscan : fscanf format f = ⟨[], false, ⟨f.text.dropWhile isBlank, f.eof⟩⟩ :=
      fscanf_rejects h
    have hcheck : check primary port in6 (fscanf format f) = (false, in6) := by
      rw [hscan]
      exact if_pos (by simp [Scan.result])
    rw [scanLoop, heof, if_neg Bool.false_ne_true]
    dsimp only
    rw [hcheck, hscan]
    exact ih heof h.skipped

/-- From a place where a scan begins the loop goes on as from the start. -/
theorem Begins.loop (h : Begins primary port f in6 g words)
    (hnone : ∀ fuel, scanLoop primary port fuel g words = none) :
    ∀ fuel, scanLoop primary port fuel f in6 = none := by
  induction h with
  | first => exact hnone
  | next _ heof hcheck ih =>
    refine ih fun fuel => ?_
    cases fuel with
    | zero => rfl
    | succ fuel =>
      rw [scanLoop, heof, if_neg Bool.false_ne_true]
      dsimp only
      rw [hcheck]
      exact hnone fuel

/-- When no scan begins with something else, each takes a character or meets the end. -/
theorem Begins.terminates (h : Begins primary port f in6 g words)
    (hscan : ∀ g words, Begins primary port f in6 g words → g.eof = false → ¬ g.Rejects)
    (hfuel : g.text.length + 1 < fuel) : ∃ r, scanLoop primary port fuel g words = some r := by
  induction fuel generalizing g words with
  | zero => exact absurd hfuel (Nat.not_lt_zero _)
  | succ fuel ih =>
    rw [scanLoop]
    cases heof : g.eof with
    | true => exact ⟨false, rfl⟩
    | false =>
      dsimp only
      rw [if_neg Bool.false_ne_true]
      rcases hcheck : check primary port words (fscanf format g) with ⟨_ | _, words'⟩
      · rcases fscanf_advances (hscan g words h heof) with hend | hlt
        · -- the end is known at the next test
          obtain ⟨fuel, rfl⟩ : ∃ m, fuel = m + 1 := ⟨fuel - 1, by omega⟩
          exact ⟨false, if_pos hend⟩
        · exact ih (h.next heof hcheck) (Nat.lt_of_lt_of_le (Nat.succ_lt_succ hlt) (by omega))
      · exact ⟨true, rfl⟩

/-- The search ends if and only if each of its scans begins with a number. -/
theorem isListeningTo_terminates_iff (primary : Words) (port : UInt16) (in6 : Words)
    (content : Option (List UInt8)) :
    (∃ fuel r, isListeningTo primary port in6 fuel content = some r) ↔
      Scannable primary port in6 content := by
  cases content with
  | none =>
    refine ⟨fun _ text f g words htext => ?_, fun _ => ⟨0, false, rfl⟩⟩
    cases htext
  | some text =>
    cases hfirst : Input.fgets 512 ⟨text, false⟩ with
    | none =>
      refine ⟨fun _ text' f g words htext hf => ?_, fun _ => ⟨0, false, ?_⟩⟩
      · obtain rfl := Option.some.inj htext
        rw [hfirst] at hf
        cases hf
      · rw [isListeningTo, hfirst]
    | some f =>
      have hloop : ∀ fuel, isListeningTo primary port in6 fuel (some text) =
          scanLoop primary port fuel f in6 := by
        intro fuel
        rw [isListeningTo, hfirst]
      constructor
      · rintro ⟨fuel, r, h⟩ text' f' g words htext hf hbegins heof hrejects
        obtain rfl := Option.some.inj htext
        obtain rfl := Option.some.inj (hfirst.symm.trans hf)
        rw [hloop, hbegins.loop (fun _ => scanLoop_rejects heof hrejects)] at h
        cases h
      · intro hscan
        obtain ⟨r, hr⟩ := Begins.terminates .first (fun g words => hscan text f g words rfl hfirst)
          (Nat.lt_succ_self (f.text.length + 1))
        exact ⟨_, r, (hloop _).trans hr⟩

/-- A file whose second line is `x`. -/
theorem letter_never_ends (primary in6 : Words) (port : UInt16) (fuel : ℕ) :
    isListeningTo primary port in6 fuel (some [115, 108, 10, 120, 10]) = none := by
  have hfirst : Input.fgets 512 ⟨[115, 108, 10, 120, 10], false⟩ = some ⟨[120, 10], false⟩ := by
    decide
  rw [isListeningTo, hfirst]
  exact scanLoop_rejects rfl ⟨120, [10], by decide, by decide, by decide, by decide⟩

theorem letter_not_terminates :
    ¬ ∃ fuel r, isListeningTo (fun _ => 0) 22 (fun _ => 0) fuel (some [115, 108, 10, 120, 10]) =
      some r := by
  rintro ⟨fuel, r, h⟩
  rw [letter_never_ends] at h
  cases h

end Redx.Interface
