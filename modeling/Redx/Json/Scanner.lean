import Redx.Library.Machine
import Redx.Library.Scanf

/-!
# The scanner

`get_next_token` goes from label to label and reads on with `nextchar`, so that the character
behind the token is always there already. Whatever it reads goes into a buffer for the reports.
-/
namespace Redx.Json
open Library

/-- The tokens, of which six are their character. -/
inductive Token where
  | leftBrace
  | rightBrace
  | leftBracket
  | rightBracket
  | colon
  | comma
  | endOfInput
  | integer
  | string
  | identifier
  | keywordNull
  | keywordTrue
  | keywordFalse
  deriving DecidableEq, Repr

/-- What the program says before it dies: `required` prints the token that it has found, and then
the parse error. -/
inductive Message where
  | unterminatedString
  | invalidCharacter (c : UInt8)
  | parseError (place : String)
  | required (token : List UInt8)
  deriving DecidableEq, Repr

/-- What `scanner_report` prints: a line, as many blanks and a caret, and a message. -/
structure Report where
  line : List UInt8
  blanks : ℕ
  message : String
  deriving DecidableEq, Repr

inductive Buffer where
  | input
  | currentString
  | report
  deriving DecidableEq, Repr

/-- Why the program does not go on: it dies with a message and a report of the input that it has
read, or it stores behind the end of a buffer. -/
inductive Stop where
  | exit (message : Message) (report : Report)
  | overrun (buffer : Buffer)
  | fuel
  deriving DecidableEq, Repr

/-- `sizeof input` -/
def sizeofInput : ℕ := 4096

/-- `sizeof current_string` -/
def sizeofString : ℕ := 4096

/-- `sizeof s` in `report_token` -/
def sizeofReport : ℕ := 4096

/-- The bytes before the first NUL. -/
def cString (buffer : List UInt8) : List UInt8 := buffer.takeWhile (· ≠ 0)

/-- The variables of the scanner. The text is what is still to read, from `c` on; `input_pos` is
the length of the input, and `stringpos` that of the string. -/
structure Scanner where
  text : List UInt8
  input : List UInt8
  currentToken : Token
  currentString : List UInt8
  currentInteger : ℤ
  deriving DecidableEq, Repr

/-- The labels of `get_next_token` that are jumped to from behind them or from elsewhere. -/
inductive Label where
  | startScan
  | eatWhitespace
  | recognizeDecimal
  | recognizeHex
  | recognizeOctal
  | determineBase
  | recognizeString
  | recognizeMetachar
  | recognizeIdentifier
  deriving DecidableEq, Repr

def isWhitespace (c : UInt8) : Bool := c = 32 || c = 9 || c = 13 || c = 10

def isOctalDigit (c : UInt8) : Bool := 48 ≤ c && c ≤ 55

/-- The characters of an identifier. -/
def isLetter (c : UInt8) : Bool :=
  c = 95 || c = 36 || (65 ≤ c && c ≤ 90) || (97 ≤ c && c ≤ 122)

/-- The characters that are tokens. -/
def punctuation (c : UInt8) : Option Token :=
  if c = 123 then some .leftBrace
  else if c = 125 then some .rightBrace
  else if c = 91 then some .leftBracket
  else if c = 93 then some .rightBracket
  else if c = 58 then some .colon
  else if c = 44 then some .comma
  else none

/-- What a character behind a backslash stands for. -/
def metachar (c : UInt8) : Option UInt8 :=
  if c = 34 then some 34
  else if c = 110 then some 10
  else if c = 114 then some 13
  else if c = 116 then some 9
  else none

/-- `check_for_keyword` -/
def checkForKeyword (word : List UInt8) : Token :=
  if word = [110, 117, 108, 108] then .keywordNull
  else if word = [116, 114, 117, 101] then .keywordTrue
  else if word = [102, 97, 108, 115, 101] then .keywordFalse
  else .identifier

namespace Scanner

/-- The character that the scanner is at; none is `EOF`. -/
def c (s : Scanner) : Option UInt8 := s.text.head?

/-- The current character, if it is one of those. -/
def sees (s : Scanner) (accepts : UInt8 → Bool) : Option UInt8 := s.c.filter accepts

/-- The scanner at the next character; `EOF` is stored as 255. -/
def next (s : Scanner) : Scanner :=
  { s with text := s.text.tail, input := s.input ++ [s.text.tail.head?.getD 255] }

/-- `nextchar` stores the character and a NUL behind it. -/
def nextchar (s : Scanner) : Except Stop Scanner :=
  if s.input.length + 1 < sizeofInput then .ok s.next else .error (.overrun .input)

/-- `current_string[stringpos++] = c` -/
def append (c : UInt8) (s : Scanner) : Except Stop Scanner :=
  if s.currentString.length < sizeofString then
    .ok { s with currentString := s.currentString ++ [c] }
  else .error (.overrun .currentString)

/-- `current_string[stringpos] = '\0'` -/
def terminate (s : Scanner) : Except Stop Scanner :=
  if s.currentString.length < sizeofString then .ok s else .error (.overrun .currentString)

/-- A digit more of an integer that is never set to 0 for a new one. -/
def addDigit (base digit : ℕ) (s : Scanner) : Scanner :=
  { s with currentInteger := toLong (s.currentInteger * base + digit) }

/-- The token is found. -/
def found (token : Token) (s : Scanner) : Scanner := { s with currentToken := token }

/-- `scanner_report` -/
def report (message : String) (s : Scanner) : Report :=
  ⟨cString s.input, s.input.length - 1, message⟩

/-- `unterminated_string` -/
def unterminatedString (s : Scanner) : Stop :=
  .exit .unterminatedString (s.report "unterminated string\n")

/-- `invalid_character` -/
def invalidCharacter (c : UInt8) (s : Scanner) : Stop :=
  .exit (.invalidCharacter c) (s.report "here\n")

/-- `sprintf` into the buffer of `report_token`, with a NUL behind the text. -/
def sprintf (text : List UInt8) : Except Stop (List UInt8) :=
  if text.length < sizeofReport then .ok text else .error (.overrun .report)

/-- `report_token`, for the current token. -/
def reportToken (s : Scanner) : Except Stop (List UInt8) :=
  match s.currentToken with
  | .colon => .ok [60, 58, 62]
  | .comma => .ok [60, 44, 62]
  | .leftBrace => .ok [60, 123, 62]
  | .rightBrace => .ok [60, 125, 62]
  | .leftBracket => .ok [60, 91, 62]
  | .rightBracket => .ok [60, 93, 62]
  | .endOfInput => .ok [60, 69, 79, 73, 62]
  | .identifier =>
    sprintf ([73, 68, 69, 78, 84, 73, 70, 73, 69, 82, 60] ++ cString s.currentString ++ [62])
  | .integer => sprintf ([73, 78, 84, 69, 71, 69, 82, 60] ++ signedDecimal s.currentInteger ++ [62])
  | .string => sprintf ([83, 84, 82, 73, 78, 71, 60] ++ cString s.currentString ++ [62])
  | .keywordTrue => .ok [116, 114, 117, 101]
  | .keywordFalse => .ok [102, 97, 108, 115, 101]
  | .keywordNull => .ok [110, 117, 108, 108]

end Scanner

/-- `get_next_token` from a label on, with one unit of fuel for each jump. -/
@[simp] def scan : ℕ → Label → Scanner → Except Stop Scanner
  | 0, _, _ => .error .fuel
  | n + 1, .startScan, s =>
    match s.c with
    | none => .ok (s.found .endOfInput)
    | some c =>
      if isWhitespace c then scan n .eatWhitespace s
      else if c = 34 then do
        let s ← { s with currentString := [] }.nextchar
        scan n .recognizeString s
      else
        match punctuation c with
        | some token => (s.found token).nextchar
        | none =>
          if c = 48 then scan n .determineBase s
          else if isDigit c then scan n .recognizeDecimal s
          else scan n .recognizeIdentifier { s with currentString := [] }
  | n + 1, .eatWhitespace, s => do
    let s ← s.nextchar
    match s.sees isWhitespace with
    | some _ => scan n .eatWhitespace s
    | none => scan n .startScan s
  | n + 1, .recognizeDecimal, s =>
    match s.sees isDigit with
    | some c => do
      let s ← (s.addDigit 10 (c.toNat - 48)).nextchar
      scan n .recognizeDecimal s
    | none => .ok (s.found .integer)
  | n + 1, .recognizeHex, s =>
    match s.sees isHexDigit with
    | some c => do
      let s ← (s.addDigit 16 (hexDigit c)).nextchar
      scan n .recognizeHex s
    | none => .ok (s.found .integer)
  | n + 1, .recognizeOctal, s =>
    match s.sees isDigit with
    | some c =>
      if isOctalDigit c then do
        let s ← (s.addDigit 8 (c.toNat - 48)).nextchar
        scan n .recognizeOctal s
      else .error (s.invalidCharacter c)
    | none => .ok (s.found .integer)
  | n + 1, .determineBase, s => do
    let s ← s.nextchar
    match s.c with
    | some c =>
      if c = 120 then do
        let s ← s.nextchar
        scan n .recognizeHex s
      else if isOctalDigit c then scan n .recognizeOctal s
      else if isDigit c then .error (s.invalidCharacter c)
      else .ok ({ s with currentInteger := 0 }.found .integer)
    | none => .ok ({ s with currentInteger := 0 }.found .integer)
  | n + 1, .recognizeString, s =>
    match s.c with
    | none => .error s.unterminatedString
    | some c =>
      if c = 34 then do
        let s ← s.terminate
        let s ← s.nextchar
        return s.found .string
      else if c = 92 then do
        let s ← s.nextchar
        scan n .recognizeMetachar s
      else do
        let s ← s.append c
        let s ← s.nextchar
        scan n .recognizeString s
  | n + 1, .recognizeMetachar, s =>
    match s.c with
    | none => .error s.unterminatedString
    | some c =>
      match metachar c with
      | some c => do
        let s ← s.append c
        let s ← s.nextchar
        scan n .recognizeString s
      | none => .error (s.invalidCharacter c)
  | n + 1, .recognizeIdentifier, s =>
    match s.sees isLetter with
    | some c => do
      let s ← s.append c
      let s ← s.nextchar
      scan n .recognizeIdentifier s
    | none =>
      match s.c with
      | some c =>
        if 122 < c ∧ s.currentString = [] then .error (s.invalidCharacter c)
        else do
          let s ← s.terminate
          return s.found (checkForKeyword s.currentString)
      | none => do
        let s ← s.terminate
        return s.found (checkForKeyword s.currentString)

/-- `get_next_token`: no more jumps than characters, and three. -/
def getNextToken (s : Scanner) : Except Stop Scanner := scan (s.text.length + 3) .startScan s

/-- `init_scanner`, on a text. Before it `c` is 0, and there is no token. -/
def initScanner (text : List UInt8) : Except Stop Scanner :=
  Scanner.nextchar ⟨0 :: text, [], .endOfInput, [], 0⟩

end Redx.Json
