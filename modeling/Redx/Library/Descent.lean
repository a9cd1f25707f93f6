import Mathlib.Computability.Language

/-!
# Recursive descent

Recognisers that decide by the current token of a source, over any source whose steps may fail.
A recogniser that predicts a language by its first tokens consumes just the words of it, and one
whose calls only go down on a measure does not run out of fuel.
-/
namespace Redx.Library

variable {σ τ ε : Type*}

/-- A source of tokens: the current one, and the step to the next. -/
structure Source (σ τ ε : Type*) where
  current : σ → τ
  advance : σ → Except ε σ

/-- The result tells whether something was recognised. -/
abbrev Recogniser (σ ε : Type*) := σ → Except ε (Bool × σ)

namespace Recogniser

/-- `p() && q()` -/
def andThen (p q : Recogniser σ ε) : Recogniser σ ε := fun s =>
  match p s with
  | .error e => .error e
  | .ok (false, s) => .ok (false, s)
  | .ok (true, s) => q s

/-- `p() || q()` -/
def orElse (p q : Recogniser σ ε) : Recogniser σ ε := fun s =>
  match p s with
  | .error e => .error e
  | .ok (true, s) => .ok (true, s)
  | .ok (false, s) => q s

/-- `p() || 1` -/
def optional (p : Recogniser σ ε) : Recogniser σ ε := p.orElse fun s => .ok (true, s)

/-- `p() || fail()`, where the failure does not return. -/
def required (missing : σ → ε) (p : Recogniser σ ε) : Recogniser σ ε :=
  p.orElse fun s => .error (missing s)

end Recogniser

/-- Words of a language with a separator between them. -/
inductive Separated (sep : τ) (L : Language τ) : List τ → Prop
  | last {ts : List τ} : ts ∈ L → Separated sep L ts
  | more {ts us : List τ} : ts ∈ L → Separated sep L us → Separated sep L (ts ++ sep :: us)

/-- A word of the list begins as a word of the language does. -/
theorem Separated.head {sep : τ} {L : Language τ} {first : Set τ} (hL : [] ∉ L)
    (hfirst : ∀ t ts, t :: ts ∈ L → t ∈ first) {t : τ} {ts : List τ}
    (h : Separated sep L (t :: ts)) : t ∈ first := by
  generalize hw : t :: ts = w at h
  cases h with
  | last hts => exact hfirst t ts (hw ▸ hts)
  | @more vs us hvs _ =>
    cases vs with
    | nil => exact absurd hvs hL
    | cons v vs =>
      obtain ⟨rfl, -⟩ := List.cons.inj hw
      exact hfirst t vs hvs

theorem Separated.ne_nil {sep : τ} {L : Language τ} (hL : [] ∉ L) {ts : List τ}
    (h : Separated sep L ts) : ts ≠ [] := by
  cases h with
  | last hts => exact fun he => hL (he ▸ hts)
  | more => simp

namespace Source
open Recogniser

variable (src : Source σ τ ε)

/-- From one state to another the source gives the tokens of the list. -/
inductive Reads : σ → List τ → σ → Prop
  | done {s : σ} : Reads s [] s
  | token {s t u : σ} {ts : List τ} : src.advance s = .ok t → Reads t ts u →
      Reads s (src.current s :: ts) u

variable [DecidableEq τ]

/-- Consume one token if it is the current one. -/
def token (a : τ) : Recogniser σ ε := fun s =>
  if src.current s = a then
    match src.advance s with
    | .error e => .error e
    | .ok s => .ok (true, s)
  else .ok (false, s)

/-- While the separator is the current token, consume it and an item, which has to be there. -/
def more (sep : τ) (missing exhausted : σ → ε) (item : Recogniser σ ε) : ℕ → Recogniser σ ε
  | 0, s => .error (exhausted s)
  | n + 1, s =>
    if src.current s = sep then
      match src.advance s with
      | .error e => .error e
      | .ok s =>
        match item s with
        | .error e => .error e
        | .ok (false, s) => .error (missing s)
        | .ok (true, s) => more sep missing exhausted item n s
    else .ok (true, s)

variable {src} {s t u : σ} {ts us : List τ} {a sep : τ} {p q : Recogniser σ ε}
  {first first' follow follow' : Set τ} {L L' : Language τ} {n k : ℕ} {e : ε}
  {missing exhausted : σ → ε}

omit [DecidableEq τ] in
theorem Reads.append (h : src.Reads s ts t) (h' : src.Reads t us u) :
    src.Reads s (ts ++ us) u := by
  induction h with
  | done => exact h'
  | token hs _ ih => exact .token hs (ih h')

omit [DecidableEq τ] in
theorem Reads.split (h : src.Reads s (ts ++ us) u) :
    ∃ t, src.Reads s ts t ∧ src.Reads t us u := by
  induction ts generalizing s with
  | nil => exact ⟨s, .done, h⟩
  | cons a ts ih =>
    cases h with
    | token hs hr =>
      obtain ⟨t, ht, hu⟩ := ih hr
      exact ⟨t, .token hs ht, hu⟩

omit [DecidableEq τ] in
theorem reads_cons : src.Reads s (a :: ts) u ↔
    src.current s = a ∧ ∃ t, src.advance s = .ok t ∧ src.Reads t ts u := by
  constructor
  · intro h
    cases h with
    | token hs hr => exact ⟨rfl, _, hs, hr⟩
  · rintro ⟨rfl, t, hs, hr⟩
    exact .token hs hr

omit [DecidableEq τ] in
theorem Reads.unique (h : src.Reads s ts t) (h' : src.Reads s ts u) : t = u := by
  induction h with
  | done => cases h'; rfl
  | token hs _ ih =>
    obtain ⟨-, _, hs', hr'⟩ := reads_cons.mp h'
    obtain rfl := Except.ok.inj (hs.symm.trans hs')
    exact ih hr'

/-- The recogniser goes by the current token: it fails, without consuming, unless that is one of
`first`. It consumes words of `L` only, and all those shorter than `n` that no token of `follow`
comes behind. -/
structure Predicts (src : Source σ τ ε) (p : Recogniser σ ε) (first follow : Set τ)
    (L : Language τ) (n : ℕ) : Prop where
  refuses : ∀ s, 0 < n → src.current s ∉ first → p s = .ok (false, s)
  fails : ∀ s t, p s = .ok (false, t) → t = s ∧ src.current s ∉ first
  begins : ∀ a ts, a :: ts ∈ L → a ∈ first
  sound : ∀ s t, p s = .ok (true, t) → ∃ ts ∈ L, src.Reads s ts t
  complete : ∀ s ts t, ts ∈ L → ts.length < n → src.Reads s ts t → src.current t ∉ follow →
    p s = .ok (true, t)

namespace Predicts

theorem token (a : τ) : src.Predicts (src.token a) {a} ∅ {[a]} n where
  refuses s _ hs := if_neg hs
  fails s t h := by
    rw [Source.token] at h
    split at h
    · split at h <;> cases h
    · rename_i hs
      exact ⟨(Prod.mk.inj (Except.ok.inj h)).2.symm, hs⟩
  begins b ts h := (List.cons.inj h).1
  sound s t h := by
    rw [Source.token] at h
    split at h
    · rename_i hs
      split at h
      · cases h
      · rename_i t' ht
        obtain ⟨-, rfl⟩ := Prod.mk.inj (Except.ok.inj h)
        exact ⟨[a], rfl, hs ▸ .token ht .done⟩
    · cases h
  complete s ts t hts _ hr _ := by
    rw [Set.mem_singleton_iff.mp hts, reads_cons] at hr
    obtain ⟨hs, t', ht, hr⟩ := hr
    cases hr
    rw [Source.token, if_pos hs, ht]

omit [DecidableEq τ] in
/-- What has to come second begins with a token that cannot follow what comes first. -/
theorem andThen (hp : src.Predicts p first follow L n)
    (hq : src.Predicts q Set.univ follow' L' n) (hL : [] ∈ L → ∀ a, a ∈ first)
    (hfollow : follow = ∅ ∨ ∀ ts ∈ L', ∃ a us, ts = a :: us ∧ a ∉ follow) :
    src.Predicts (p.andThen q) first follow' (L * L') n where
  refuses s hn hs := by rw [Recogniser.andThen, hp.refuses s hn hs]
  fails s t h := by
    rw [Recogniser.andThen] at h
    split at h
    · cases h
    · rename_i hps
      obtain ⟨-, rfl⟩ := Prod.mk.inj (Except.ok.inj h)
      exact hp.fails s _ hps
    · exact absurd (Set.mem_univ _) (hq.fails _ _ h).2
  begins a ts h := by
    obtain ⟨us, hus, vs, -, he⟩ := Language.mem_mul.mp h
    cases us with
    | nil => exact hL hus a
    | cons b us =>
      obtain ⟨rfl, -⟩ := List.cons.inj he
      exact hp.begins b us hus
  sound s t h := by
    rw [Recogniser.andThen] at h
    split at h
    · cases h
    · cases h
    · rename_i m hps
      obtain ⟨us, hus, hr⟩ := hp.sound s m hps
      obtain ⟨vs, hvs, hr'⟩ := hq.sound m t h
      exact ⟨us ++ vs, Language.append_mem_mul hus hvs, hr.append hr'⟩
  complete s ts t hts hlen hr ht := by
    obtain ⟨us, hus, vs, hvs, rfl⟩ := Language.mem_mul.mp hts
    rw [List.length_append] at hlen
    obtain ⟨m, hrm, hrt⟩ := hr.split
    have hm : src.current m ∉ follow := by
      rcases hfollow with rfl | hfollow
      · exact id
      · obtain ⟨a, ws, rfl, ha⟩ := hfollow vs hvs
        exact (reads_cons.mp hrt).1 ▸ ha
    rw [Recogniser.andThen, hp.complete s us m hus (by omega) hrm hm]
    exact hq.complete m vs t hvs (by omega) hrt ht

/-- Behind a token that is consumed the words are one token shorter. -/
theorem token_andThen (a : τ) (hq : src.Predicts q Set.univ follow' L' n) :
    src.Predicts ((src.token a).andThen q) {a} follow' ({[a]} * L') (n + 1) := by
  have hnil : [] ∉ ({[a]} : Language τ) := fun h => List.cons_ne_nil _ _ (Eq.symm h)
  have h := (Predicts.token a).andThen hq (fun hn => absurd hn hnil) (.inl rfl)
  refine ⟨fun s _ hs => ?_, h.fails, h.begins, h.sound, fun s ts t hts hlen hr ht => ?_⟩
  · rw [Recogniser.andThen, (Predicts.token (n := 1) a).refuses s Nat.one_pos hs]
  · obtain ⟨us, rfl, vs, hvs, rfl⟩ := Language.mem_mul.mp hts
    obtain ⟨hs, m, hm, hr⟩ := reads_cons.mp hr
    rw [Recogniser.andThen, Source.token, if_pos hs, hm]
    exact hq.complete m vs t hvs (Nat.lt_of_succ_lt_succ hlen) hr ht

omit [DecidableEq τ] in
theorem orElse (hp : src.Predicts p first follow L n) (hq : src.Predicts q first' follow L' n)
    (hdisj : ∀ a ∈ first', a ∉ first) (hL' : [] ∉ L') :
    src.Predicts (p.orElse q) (first ∪ first') follow (L + L') n where
  refuses s hn hs := by
    rw [Set.mem_union, not_or] at hs
    rw [Recogniser.orElse, hp.refuses s hn hs.1]
    exact hq.refuses s hn hs.2
  fails s t h := by
    rw [Recogniser.orElse] at h
    split at h
    · cases h
    · cases h
    · rename_i hps
      obtain ⟨rfl, hs⟩ := hp.fails s _ hps
      obtain ⟨rfl, hs'⟩ := hq.fails _ t h
      exact ⟨rfl, fun hu => hu.elim hs hs'⟩
  begins a ts h := h.imp (hp.begins a ts) (hq.begins a ts)
  sound s t h := by
    rw [Recogniser.orElse] at h
    split at h
    · cases h
    · rename_i hps
      obtain ⟨-, rfl⟩ := Prod.mk.inj (Except.ok.inj h)
      obtain ⟨ts, hts, hr⟩ := hp.sound s _ hps
      exact ⟨ts, .inl hts, hr⟩
    · rename_i hps
      rw [(hp.fails s _ hps).1] at h
      obtain ⟨ts, hts, hr⟩ := hq.sound s t h
      exact ⟨ts, .inr hts, hr⟩
  complete s ts t := by
    rintro (hts | hts) hlen hr ht
    · rw [Recogniser.orElse, hp.complete s ts t hts hlen hr ht]
    · cases ts with
      | nil => exact absurd hts hL'
      | cons a ts =>
        have hs : src.current s ∉ first :=
          (reads_cons.mp hr).1 ▸ hdisj a (hq.begins a ts hts)
        rw [Recogniser.orElse, hp.refuses s (Nat.zero_lt_of_lt hlen) hs]
        exact hq.complete s _ t hts hlen hr ht

omit [DecidableEq τ] in
/-- Nothing at all is recognised before a token that the recogniser does not begin with. -/
theorem optional (hp : src.Predicts p first follow L n) :
    src.Predicts p.optional Set.univ (follow ∪ first) (1 + L) n where
  refuses s _ hs := absurd (Set.mem_univ _) hs
  fails s t h := by
    rw [Recogniser.optional, Recogniser.orElse] at h
    split at h <;> cases h
  begins a ts _ := Set.mem_univ a
  sound s t h := by
    rw [Recogniser.optional, Recogniser.orElse] at h
    split at h
    · cases h
    · rename_i hps
      obtain ⟨-, rfl⟩ := Prod.mk.inj (Except.ok.inj h)
      obtain ⟨ts, hts, hr⟩ := hp.sound s _ hps
      exact ⟨ts, .inr hts, hr⟩
    · rename_i hps
      obtain ⟨-, rfl⟩ := Prod.mk.inj (Except.ok.inj h)
      exact ⟨[], .inl rfl, (hp.fails s _ hps).1 ▸ .done⟩
  complete s ts t := by
    rintro (rfl | hts) hlen hr ht <;> rw [Set.mem_union, not_or] at ht
    · cases hr
      rw [Recogniser.optional, Recogniser.orElse, hp.refuses s hlen ht.2]
    · rw [Recogniser.optional, Recogniser.orElse, hp.complete s ts t hts hlen hr ht.1]

omit [DecidableEq τ] in
theorem required (hp : src.Predicts p first follow L n) :
    src.Predicts (p.required missing) Set.univ follow L n where
  refuses s _ hs := absurd (Set.mem_univ _) hs
  fails s t h := by
    rw [Recogniser.required, Recogniser.orElse] at h
    split at h <;> cases h
  begins a ts _ := Set.mem_univ a
  sound s t h := by
    rw [Recogniser.required, Recogniser.orElse] at h
    split at h
    · cases h
    · rename_i hps
      obtain ⟨-, rfl⟩ := Prod.mk.inj (Except.ok.inj h)
      exact hp.sound s _ hps
    · cases h
  complete s ts t hts hlen hr ht := by
    rw [Recogniser.required, Recogniser.orElse, hp.complete s ts t hts hlen hr ht]

theorem more_sound (hp : src.Predicts p first follow L n) {b : Bool}
    (h : src.more sep missing exhausted p k s = .ok (b, t)) :
    b = true ∧ (t = s ∨ ∃ us, Separated sep L us ∧ src.Reads s (sep :: us) t) := by
  induction k generalizing s with
  | zero => cases h
  | succ k ih =>
    rw [more] at h
    split at h
    · rename_i hs
      split at h
      · cases h
      · rename_i m hm
        split at h
        · cases h
        · cases h
        · rename_i m' hpm
          obtain ⟨ts, hts, hr⟩ := hp.sound m m' hpm
          obtain ⟨hb, rfl | ⟨us, hus, hr'⟩⟩ := ih h
          · exact ⟨hb, .inr ⟨ts, .last hts, reads_cons.mpr ⟨hs, m, hm, hr⟩⟩⟩
          · exact ⟨hb, .inr ⟨ts ++ sep :: us, .more hts hus,
              reads_cons.mpr ⟨hs, m, hm, hr.append hr'⟩⟩⟩
    · obtain ⟨rfl, rfl⟩ := Prod.mk.inj (Except.ok.inj h)
      exact ⟨rfl, .inl rfl⟩

theorem separated_complete (hp : src.Predicts p first follow L n) (hsep : sep ∉ follow)
    (hts : Separated sep L ts) (hn : ts.length < n) (hk : ts.length < k) (hr : src.Reads s ts t)
    (ht : src.current t ∉ insert sep follow) :
    p.andThen (src.more sep missing exhausted p k) s = .ok (true, t) := by
  rw [Set.mem_insert_iff, not_or] at ht
  induction hts generalizing s k with
  | last hts =>
    obtain ⟨k, rfl⟩ := Nat.exists_eq_add_one.mpr (Nat.zero_lt_of_lt hk)
    rw [Recogniser.andThen, hp.complete s _ t hts hn hr ht.2]
    exact if_neg ht.1
  | @more ts us hts _ ih =>
    rw [List.length_append, List.length_cons] at hn hk
    obtain ⟨m, hrm, hrt⟩ := hr.split
    obtain ⟨hm, m', hm', hrt⟩ := reads_cons.mp hrt
    obtain ⟨k, rfl⟩ := Nat.exists_eq_add_one.mpr (Nat.zero_lt_of_lt hk)
    have hrest := ih (by omega) (k := k) (by omega) hrt
    rw [Recogniser.andThen, hp.complete s ts m hts (by omega) hrm (hm ▸ hsep)]
    dsimp only
    rw [more, if_pos hm, hm']
    dsimp only
    rw [Recogniser.andThen] at hrest
    -- the item behind the separator is where the rest of the list begins
    split at hrest
    · cases hrest
    · cases hrest
    · exact hrest

/-- An item, and then more of them as long as there is a separator. -/
theorem separated (hp : src.Predicts p first follow L n) (hL : [] ∉ L) (hsep : sep ∉ follow)
    (hk : n ≤ k) :
    src.Predicts (p.andThen (src.more sep missing exhausted p k)) first (insert sep follow)
      {ts | Separated sep L ts} n where
  refuses s hn hs := by rw [Recogniser.andThen, hp.refuses s hn hs]
  fails s t h := by
    rw [Recogniser.andThen] at h
    split at h
    · cases h
    · rename_i hps
      obtain ⟨-, rfl⟩ := Prod.mk.inj (Except.ok.inj h)
      exact hp.fails s _ hps
    · exact absurd (hp.more_sound h).1 Bool.false_ne_true
  begins a ts h := Separated.head hL hp.begins h
  sound s t h := by
    rw [Recogniser.andThen] at h
    split at h
    · cases h
    · cases h
    · rename_i m hps
      obtain ⟨ts, hts, hr⟩ := hp.sound s m hps
      obtain ⟨-, rfl | ⟨us, hus, hr'⟩⟩ := hp.more_sound h
      · exact ⟨ts, .last hts, hr⟩
      · exact ⟨ts ++ sep :: us, .more hts hus, hr.append hr'⟩
  complete s ts t hts hlen hr ht :=
    hp.separated_complete hsep hts hlen (Nat.lt_of_lt_of_le hlen hk) hr ht

end Predicts

/-! ### Errors

From states with the invariant `I`, whose steps keep it, the errors are of the kind `E`. The tokens
of `A` are those whose consumption takes a source down on the measure `μ`, so that fuel that is
above the measure does not run out, whether `E` allows for that or not. -/

section Ends

variable {I : σ → Prop} {E : ε → Prop} {μ : σ → ℕ} {A : Set τ}

/-- From states below the bound the recogniser has no other errors. -/
def Ends (I : σ → Prop) (E : ε → Prop) (μ : σ → ℕ) (p : Recogniser σ ε) (n : ℕ) : Prop :=
  ∀ s e, I s → μ s < n → p s = .error e → E e

/-- Advancing keeps the invariant and goes down over a token of `A`. -/
structure Descends (src : Source σ τ ε) (I : σ → Prop) (E : ε → Prop) (μ : σ → ℕ) (A : Set τ) :
    Prop where
  keeps : ∀ s t, I s → src.advance s = .ok t → I t
  error : ∀ s e, I s → src.advance s = .error e → E e
  lt : ∀ s t, src.current s ∈ A → src.advance s = .ok t → μ t < μ s

omit [DecidableEq τ] in
theorem Descends.reads (hd : src.Descends I E μ A) (hI : I s) (hr : src.Reads s ts t) : I t := by
  induction hr with
  | done => exact hI
  | token hs _ ih => exact ih (hd.keeps _ _ hI hs)

omit [DecidableEq τ] in
theorem Descends.le (hd : src.Descends I E μ A) (hr : src.Reads s ts t)
    (hts : ∀ a ∈ ts, a ∈ A) : μ t + ts.length ≤ μ s := by
  induction hr with
  | done => simp
  | @token s m _ ts hs _ ih =>
    have hlt := hd.lt s m (hts _ List.mem_cons_self) hs
    have hle := ih fun a ha => hts a (List.mem_cons_of_mem _ ha)
    rw [List.length_cons]
    omega

/-- A language of words over the alphabet. -/
def Over (A : Set τ) (L : Language τ) : Prop := ∀ ts ∈ L, ∀ a ∈ ts, a ∈ A

omit [DecidableEq τ] in
theorem Predicts.le (hp : src.Predicts p first follow L n) (hd : src.Descends I E μ A)
    (hL : Over A L) (hI : I s) {b : Bool} (h : p s = .ok (b, t)) : I t ∧ μ t ≤ μ s := by
  cases b with
  | false =>
    obtain ⟨rfl, -⟩ := hp.fails s t h
    exact ⟨hI, le_rfl⟩
  | true =>
    obtain ⟨ts, hts, hr⟩ := hp.sound s t h
    exact ⟨hd.reads hI hr, Nat.le_of_add_right_le (hd.le hr (hL ts hts))⟩

theorem Ends.token (hd : src.Descends I E μ A) (a : τ) : Ends I E μ (src.token a) n := by
  intro s e hI _ h
  rw [Source.token] at h
  split at h
  · split at h
    · rename_i he
      exact Except.error.inj h ▸ hd.error s _ hI he
    · cases h
  · cases h

omit [DecidableEq τ] in
theorem Ends.andThen (hp : Ends I E μ p n) (hq : Ends I E μ q k)
    (hlt : ∀ s t, I s → μ s < n → p s = .ok (true, t) → I t ∧ μ t < k) :
    Ends I E μ (p.andThen q) n := by
  intro s e hI hs h
  rw [Recogniser.andThen] at h
  split at h
  · rename_i hps
    exact hp s e hI hs (Except.error.inj h ▸ hps)
  · cases h
  · rename_i hps
    obtain ⟨hIt, hlt⟩ := hlt _ _ hI hs hps
    exact hq _ e hIt hlt h

omit [DecidableEq τ] in
theorem Ends.orElse (hp : Ends I E μ p n) (hq : Ends I E μ q n)
    (hfails : ∀ s t, p s = .ok (false, t) → t = s) : Ends I E μ (p.orElse q) n := by
  intro s e hI hs h
  rw [Recogniser.orElse] at h
  split at h
  · rename_i hps
    exact hp s e hI hs (Except.error.inj h ▸ hps)
  · cases h
  · rename_i hps
    obtain rfl := hfails _ _ hps
    exact hq _ e hI hs h

omit [DecidableEq τ] in
theorem Ends.optional (hp : Ends I E μ p n) : Ends I E μ p.optional n := by
  intro s e hI hs h
  rw [Recogniser.optional, Recogniser.orElse] at h
  split at h
  · rename_i hps
    exact hp s e hI hs (Except.error.inj h ▸ hps)
  · cases h
  · cases h

omit [DecidableEq τ] in
theorem Ends.required (hp : Ends I E μ p n) (hfails : ∀ s t, p s = .ok (false, t) → t = s)
    (hmissing : ∀ s, I s → E (missing s)) : Ends I E μ (p.required missing) n :=
  hp.orElse (fun s _ hI _ h => Except.error.inj h ▸ hmissing s hI) hfails

/-- Each turn of the loop takes a separator, so it needs no more turns than the measure allows. -/
theorem Ends.more (hd : src.Descends I E μ A) (hsep : sep ∈ A) (hp : Ends I E μ p n)
    (hle : ∀ s b t, I s → p s = .ok (b, t) → I t ∧ μ t ≤ μ s)
    (hmissing : ∀ s, I s → E (missing s)) (hn : n ≤ k) :
    Ends I E μ (src.more sep missing exhausted p k) n := by
  intro s e hI hs h
  have hk := Nat.lt_of_lt_of_le hs hn
  clear hn
  induction k generalizing s with
  | zero => exact absurd hk (Nat.not_lt_zero _)
  | succ k ih =>
    rw [Source.more] at h
    split at h
    · rename_i hsep'
      split at h
      · rename_i he
        exact Except.error.inj h ▸ hd.error s _ hI he
      · rename_i m hm
        have hlt := hd.lt s m (hsep' ▸ hsep) hm
        have hIm := hd.keeps s m hI hm
        split at h
        · rename_i hpm
          exact hp m e hIm (by omega) (Except.error.inj h ▸ hpm)
        · rename_i hpm
          exact Except.error.inj h ▸ hmissing _ (hle m _ _ hIm hpm).1
        · rename_i m' hpm
          obtain ⟨hIm', hle⟩ := hle m _ m' hIm hpm
          exact ih m' hIm' (by omega) h (by omega)
    · cases h

end Ends

end Source

end Redx.Library
