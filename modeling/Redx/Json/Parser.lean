import Redx.Json.Scanner
import Redx.Library.Descent

/-!
# The recogniser

Every function of the parser decides by the current token and dies where its grammar leaves no
other way, so that a call returns 0 without having consumed anything.
-/
namespace Redx.Json
open Library Library.Source

/-- `current_token`, and `get_next_token` to go on. -/
def source : Source Scanner Token Stop := ⟨Scanner.currentToken, getNextToken⟩

/-- `parse_error` -/
def parseError (place : String) (s : Scanner) : Stop :=
  .exit (.parseError place) (s.report "at this token\n")

/-- What `required` comes to without what it wants: it says which token there is. -/
def missing (s : Scanner) : Stop :=
  match s.reportToken with
  | .error e => e
  | .ok token => .exit (.required token) (s.report "at this token\n")

def exhausted (_ : Scanner) : Stop := .fuel

def token (t : Token) : Recogniser Scanner Stop := source.token t

def required (p : Recogniser Scanner Stop) : Recogniser Scanner Stop :=
  p.required missing

def jsonNumber : Recogniser Scanner Stop := token .integer

def jsonString : Recogniser Scanner Stop := token .string

/-- `JSONList`, where `JSONValue` is given, with fuel for the loop. -/
def jsonList (value : Recogniser Scanner Stop) (fuel : ℕ) : Recogniser Scanner Stop :=
  value.andThen (source.more .comma (parseError "trailing ,") exhausted value fuel)

def jsonMember (value : Recogniser Scanner Stop) : Recogniser Scanner Stop :=
  jsonString.andThen ((required (token .colon)).andThen (required value))

def jsonMemberList (value : Recogniser Scanner Stop) (fuel : ℕ) : Recogniser Scanner Stop :=
  (jsonMember value).andThen
    (source.more .comma (parseError "trailing ,") exhausted (jsonMember value) fuel)

def jsonObjectMembers (value : Recogniser Scanner Stop) (fuel : ℕ) : Recogniser Scanner Stop :=
  (jsonMemberList value fuel).optional

def jsonArrayMembers (value : Recogniser Scanner Stop) (fuel : ℕ) : Recogniser Scanner Stop :=
  (jsonList value fuel).optional

def jsonObject (value : Recogniser Scanner Stop) (fuel : ℕ) : Recogniser Scanner Stop :=
  (token .leftBrace).andThen ((jsonObjectMembers value fuel).andThen (required (token .rightBrace)))

def jsonArray (value : Recogniser Scanner Stop) (fuel : ℕ) : Recogniser Scanner Stop :=
  (token .leftBracket).andThen
    ((jsonArrayMembers value fuel).andThen (required (token .rightBracket)))

def jsonBoolean : Recogniser Scanner Stop := (token .keywordTrue).orElse (token .keywordFalse)

/-- `JSONValue`, with one unit of fuel for each call inside another. -/
def jsonValue : ℕ → Recogniser Scanner Stop
  | 0 => fun s => .error (exhausted s)
  | fuel + 1 =>
    (jsonObject (jsonValue fuel) fuel).orElse <| (jsonArray (jsonValue fuel) fuel).orElse <|
      jsonNumber.orElse <| jsonBoolean.orElse <| jsonString.orElse <| token .keywordNull

def jsonText (fuel : ℕ) : Recogniser Scanner Stop :=
  (jsonValue fuel).required (parseError "invalid value")

/-- `parse` on a text: the program returns 0 unless it stops in here. -/
def parse (text : List UInt8) : Except Stop Scanner := do
  let s ← initScanner text
  let s ← getNextToken s
  let (_, s) ← (jsonText (text.length + 1)).andThen (required (token .endOfInput)) s
  return s

/-- What the grammar has names for. -/
inductive Symbol where
  | value
  | elements
  | member
  | members

/-- The tokens that are a value of their own. -/
def scalars : Set Token :=
  {.integer, .keywordTrue, .keywordFalse, .string, .keywordNull}

/-- The grammar of the values: lists have no comma behind the last element. -/
inductive Derives : Symbol → List Token → Prop
  | scalar {t : Token} : t ∈ scalars → Derives .value [t]
  | emptyObject : Derives .value [.leftBrace, .rightBrace]
  | object {ts : List Token} : Derives .members ts →
      Derives .value (.leftBrace :: (ts ++ [.rightBrace]))
  | emptyArray : Derives .value [.leftBracket, .rightBracket]
  | array {ts : List Token} : Derives .elements ts →
      Derives .value (.leftBracket :: (ts ++ [.rightBracket]))
  | element {ts : List Token} : Derives .value ts → Derives .elements ts
  | elements {ts us : List Token} : Derives .value ts → Derives .elements us →
      Derives .elements (ts ++ .comma :: us)
  | pair {ts : List Token} : Derives .value ts → Derives .member (.string :: .colon :: ts)
  | member {ts : List Token} : Derives .member ts → Derives .members ts
  | members {ts us : List Token} : Derives .member ts → Derives .members us →
      Derives .members (ts ++ .comma :: us)

/-- The words of a symbol. -/
def words (x : Symbol) : Language Token := {ts | Derives x ts}

/-- The tokens that a value begins with. -/
def valueFirst : Set Token :=
  {.leftBrace} ∪ ({.leftBracket} ∪ ({.integer} ∪ ({.keywordTrue} ∪ {.keywordFalse} ∪
    ({.string} ∪ {.keywordNull}))))

/-- The tokens that occur in values. -/
def tokens : Set Token := {t | t ≠ .endOfInput ∧ t ≠ .identifier}

variable {x : Symbol} {ts : List Token} {n : ℕ} {value : Recogniser Scanner Stop}

theorem derives_elements : Derives .elements ts ↔ Separated .comma (words .value) ts := by
  constructor
  · intro h
    generalize hx : Symbol.elements = x at h
    induction h with
    | element hts => exact .last hts
    | elements hts _ _ ih => exact .more hts (ih hx)
    | _ => cases hx
  · intro h
    induction h with
    | last hts => exact .element hts
    | more hts _ ih => exact .elements hts ih

theorem derives_members : Derives .members ts ↔ Separated .comma (words .member) ts := by
  constructor
  · intro h
    generalize hx : Symbol.members = x at h
    induction h with
    | member hts => exact .last hts
    | members hts _ _ ih => exact .more hts (ih hx)
    | _ => cases hx
  · intro h
    induction h with
    | last hts => exact .member hts
    | more hts _ ih => exact .members hts ih

theorem Derives.ne_nil (h : Derives x ts) : ts ≠ [] := by
  cases h with
  | element h => cases h <;> simp
  | member h => cases h; simp
  | _ => simp

theorem Derives.over (h : Derives x ts) : ∀ t ∈ ts, t ∈ tokens := by
  induction h with
  | scalar ht =>
    rintro t (_ | ⟨_, ⟨⟩⟩)
    rcases ht with rfl | rfl | rfl | rfl | rfl <;> exact ⟨nofun, nofun⟩
  | element _ ih | member _ ih => exact ih
  | emptyObject | emptyArray => simp [tokens]
  | object _ ih | array _ ih | pair _ ih =>
    intro t ht
    simp only [List.mem_cons, List.mem_append, List.not_mem_nil, or_false] at ht
    have := ih t
    simp only [tokens, Set.mem_ofPred_eq] at this ⊢
    grind
  | elements _ _ ih ih' | members _ _ ih ih' =>
    intro t ht
    simp only [List.mem_cons, List.mem_append] at ht
    have := ih t
    have := ih' t
    simp only [tokens, Set.mem_ofPred_eq] at *
    grind

theorem nil_notMem_words : [] ∉ words x := fun h => Derives.ne_nil h rfl

/-- The words of `JSONValue` are those of its alternatives. -/
theorem words_value : words .value =
    {[.leftBrace]} * ((1 + words .members) * {[.rightBrace]}) +
      ({[.leftBracket]} * ((1 + words .elements) * {[.rightBracket]}) +
        ({[.integer]} + ({[.keywordTrue]} + {[.keywordFalse]} +
          ({[.string]} + {[.keywordNull]})))) := by
  ext ts
  simp only [Language.mem_add, Language.mem_mul, Language.mem_one]
  constructor
  · intro h
    cases (h : Derives .value ts) with
    | scalar ht =>
      right; right
      rcases ht with rfl | rfl | rfl | rfl | rfl
      · exact .inl rfl
      · exact .inr (.inl (.inl rfl))
      · exact .inr (.inl (.inr rfl))
      · exact .inr (.inr (.inl rfl))
      · exact .inr (.inr (.inr rfl))
    | emptyObject => exact .inl ⟨_, rfl, _, ⟨[], .inl rfl, _, rfl, rfl⟩, rfl⟩
    | object h => exact .inl ⟨_, rfl, _, ⟨_, .inr h, _, rfl, rfl⟩, rfl⟩
    | emptyArray => exact .inr (.inl ⟨_, rfl, _, ⟨[], .inl rfl, _, rfl, rfl⟩, rfl⟩)
    | array h => exact .inr (.inl ⟨_, rfl, _, ⟨_, .inr h, _, rfl, rfl⟩, rfl⟩)
  · rintro (⟨_, rfl, _, ⟨us, rfl | hus, _, rfl, rfl⟩, rfl⟩ |
      ⟨_, rfl, _, ⟨us, rfl | hus, _, rfl, rfl⟩, rfl⟩ | rfl | (rfl | rfl) | rfl | rfl)
    · exact Derives.emptyObject
    · exact Derives.object hus
    · exact Derives.emptyArray
    · exact Derives.array hus
    all_goals exact Derives.scalar (by simp [scalars])

theorem words_member : words .member = {[.string]} * ({[.colon]} * words .value) := by
  ext ts
  simp only [Language.mem_mul]
  constructor
  · intro h
    cases (h : Derives .member ts) with
    | pair h => exact ⟨_, rfl, _, ⟨_, rfl, _, h, rfl⟩, rfl⟩
  · rintro ⟨_, rfl, _, ⟨_, rfl, us, hus, rfl⟩, rfl⟩
    exact Derives.pair hus

theorem words_elements : words .elements = {ts | Separated .comma (words .value) ts} :=
  Language.ext fun _ => derives_elements

theorem words_members : words .members = {ts | Separated .comma (words .member) ts} :=
  Language.ext fun _ => derives_members

section Predicts

variable {first : Set Token} {k : ℕ}

theorem predicts_member (hv : source.Predicts value first ∅ (words .value) n) :
    source.Predicts (jsonMember value) {.string} ∅ (words .member) n := by
  rw [words_member]
  have hnil : ∀ a : Token, [] ∉ ({[a]} : Language Token) :=
    fun a h => List.cons_ne_nil _ _ (Eq.symm h)
  exact (Predicts.token .string).andThen
    (((Predicts.token .colon).required).andThen hv.required (fun h => absurd h (hnil _)) (.inl rfl))
    (fun h => absurd h (hnil _)) (.inl rfl)

theorem predicts_memberList (hv : source.Predicts value first ∅ (words .value) n) (hk : n ≤ k) :
    source.Predicts (jsonMemberList value k) {.string} {.comma} (words .members) n := by
  have h : source.Predicts (jsonMemberList value k) {.string} (insert .comma ∅)
      {ts | Separated .comma (words .member) ts} n :=
    (predicts_member hv).separated nil_notMem_words id hk
  rwa [insert_empty_eq, ← words_members] at h

theorem predicts_list (hv : source.Predicts value first ∅ (words .value) n) (hk : n ≤ k) :
    source.Predicts (jsonList value k) first {.comma} (words .elements) n := by
  have h : source.Predicts (jsonList value k) first (insert .comma ∅)
      {ts | Separated .comma (words .value) ts} n := hv.separated nil_notMem_words id hk
  rwa [insert_empty_eq, ← words_elements] at h

/-- What stands between two brackets, and is optional. -/
theorem predicts_brackets {p : Recogniser Scanner Stop} {follow : Set Token} {x : Symbol}
    (hp : source.Predicts p first follow (words x) n) (a b : Token) (hb : b ∉ follow ∪ first) :
    source.Predicts ((token a).andThen (p.optional.andThen (required (token b)))) {a} ∅
      ({[a]} * ((1 + words x) * {[b]})) (n + 1) := by
  refine Predicts.token_andThen a (hp.optional.andThen (Predicts.token b).required ?_ ?_)
  · exact fun _ => Set.mem_univ
  · refine .inr ?_
    rintro ts rfl
    exact ⟨b, [], rfl, hb⟩

theorem Derives.mem_valueFirst {t : Token} (h : Derives .value (t :: ts)) : t ∈ valueFirst := by
  cases h with
  | scalar ht => rcases ht with rfl | rfl | rfl | rfl | rfl <;> simp [valueFirst]
  | _ => simp [valueFirst]

theorem predicts_object (hv : source.Predicts value first ∅ (words .value) n) :
    source.Predicts (jsonObject value n) {.leftBrace} ∅
      ({[.leftBrace]} * ((1 + words .members) * {[.rightBrace]})) (n + 1) :=
  predicts_brackets (predicts_memberList hv le_rfl) .leftBrace .rightBrace (by decide)

theorem predicts_array (hv : source.Predicts value first ∅ (words .value) n)
    (hfirst : .rightBracket ∉ first) :
    source.Predicts (jsonArray value n) {.leftBracket} ∅
      ({[.leftBracket]} * ((1 + words .elements) * {[.rightBracket]})) (n + 1) := by
  refine predicts_brackets (predicts_list hv le_rfl) .leftBracket .rightBracket ?_
  simpa using hfirst

theorem predicts_boolean :
    source.Predicts jsonBoolean ({.keywordTrue} ∪ {.keywordFalse}) ∅
      ({[.keywordTrue]} + {[.keywordFalse]}) n :=
  (Predicts.token _).orElse (Predicts.token _) (by simp) nofun

/-- `JSONValue` decides by one token what value it has before it. -/
theorem predicts_value (n : ℕ) :
    source.Predicts (jsonValue n) valueFirst ∅ (words .value) n := by
  induction n with
  | zero =>
    exact ⟨fun s h => absurd h (lt_irrefl 0), nofun, fun _ _ h => Derives.mem_valueFirst h, nofun,
      fun s ts t _ h => absurd h (Nat.not_lt_zero _)⟩
  | succ n ih =>
    rw [words_value, jsonValue]
    have harray := predicts_array ih (by simp [valueFirst])
    have hnumber : source.Predicts jsonNumber {.integer} ∅ {[.integer]} (n + 1) := .token _
    have hlast : source.Predicts (jsonString.orElse (token .keywordNull)) _ ∅ _ (n + 1) :=
      (Predicts.token Token.string).orElse (Predicts.token Token.keywordNull) (by simp) nofun
    have hnil := words_value ▸ nil_notMem_words (x := .value)
    exact (predicts_object ih).orElse (harray.orElse (hnumber.orElse (predicts_boolean.orElse hlast
      (by simp) fun h => hnil (.inr (.inr (.inr (.inr h))))) (by simp)
      fun h => hnil (.inr (.inr (.inr h)))) (by simp) fun h => hnil (.inr (.inr h))) (by simp)
      fun h => hnil (.inr h)

end Predicts

end Redx.Json
