import Redx.Library.Run
import Redx.XenStore.Client

/-!
# The descriptor of the bus

A call opens the bus and closes it before it returns. Where the store answers with an error the
descriptor is closed twice, and in between it may be given to another thread.
-/
namespace Redx.XenStore.Descriptors
open Library

/-- What is done with a descriptor. -/
inductive Act where
  | use
  | close
  | exit
  deriving DecidableEq, Repr

/-- From the reading of the reply on, with what comes behind `fail`. -/
def replyActs (bus : DirectoryBus) : List Act :=
  .use :: match bus.header with
  | none => [.close]
  | some message => .use :: match bus.payload with
    | none => [.close]
    | some _ => if message.type = XS_ERROR then [.close, .close] else [.close]

/-- `Store::read`, `Store::mkdir` and `Store::remove` -/
def keyActs (bus : DirectoryBus) : List Act :=
  .use :: if bus.writes = false then [.close]
  else .use :: if bus.writesKey = false then [.close] else replyActs bus

/-- `Store::write` -/
def writeActs (bus : DirectoryBus) : List Act :=
  .use :: if bus.writes = false then [.close] else replyActs bus

/-- `Store::readdir` -/
def readdirActs (bus : DirectoryBus) : List Act :=
  .use :: if bus.writes = false then [.exit]
  else .use :: if bus.writesKey = false then [.exit]
  else .use :: match bus.header with
  | none => [.exit]
  | some _ => .use :: match bus.payload with
    | none => [.exit]
    | some _ => [.close]

/-- What a call does once it has opened the bus. -/
def acts : Command → DirectoryBus → List Act
  | .write _ _, bus => writeActs bus
  | .readdir _, bus => readdirActs bus
  | .read _, bus | .mkdir _, bus | .remove _, bus => keyActs bus

/-- The store answers a call other than `readdir` with an error. -/
def Refused (c : Command) (bus : DirectoryBus) : Prop :=
  bus.writes = true ∧ bus.payload.isSome ∧ (∃ message ∈ bus.header, message.type = XS_ERROR) ∧
    match c with
    | .readdir _ => False
    | .write _ _ => True
    | _ => bus.writesKey = true

/-- The open descriptors with the threads that opened them; what each thread has in `fd`, and what
is left of its call. -/
structure State (T : Type*) where
  owner : ℕ → Option T
  threads : T → Option (ℕ × List Act)

def State.start (T : Type*) : State T := ⟨fun _ => none, fun _ => none⟩

inductive Event (T : Type*) where
  | begin (t : T)
  | use (t : T)
  | close (t : T)
  | finish (t : T)

/-- The threads make calls that are possible. `open` gives the lowest descriptor that is free, and
`close` closes a descriptor whoever opened it. -/
inductive Step {T : Type*} [DecidableEq T] (possible : Command → DirectoryBus → Prop) :
    State T → Event T → State T → Prop
  | begin {s : State T} {t : T} {c : Command} {bus : DirectoryBus} {fd : ℕ} :
      possible c bus → bus.opens = true → s.threads t = none →
      s.owner fd = none → (∀ x < fd, s.owner x ≠ none) →
      Step possible s (.begin t)
        ⟨Function.update s.owner fd (some t), Function.update s.threads t (some (fd, acts c bus))⟩
  | use {s : State T} {t : T} {fd : ℕ} {rest : List Act} :
      s.threads t = some (fd, .use :: rest) →
      Step possible s (.use t) { s with threads := Function.update s.threads t (some (fd, rest)) }
  | close {s : State T} {t : T} {fd : ℕ} {rest : List Act} :
      s.threads t = some (fd, .close :: rest) →
      Step possible s (.close t)
        ⟨Function.update s.owner fd none, Function.update s.threads t (some (fd, rest))⟩
  | finish {s : State T} {t : T} {fd : ℕ} :
      s.threads t = some (fd, []) →
      Step possible s (.finish t) { s with threads := Function.update s.threads t none }

/-- Every thread that reads or writes does so on the descriptor that it opened. -/
def OwnUse {T : Type*} (s : State T) : Prop :=
  ∀ t fd rest, s.threads t = some (fd, .use :: rest) → s.owner fd = some t

variable {c : Command} {bus : DirectoryBus}

section Acts

/-- The descriptor is used some times, and then comes the tail. -/
def UsesThen (tail acts : List Act) : Prop := ∃ n, acts = List.replicate n .use ++ tail

theorem UsesThen.use {tail acts : List Act} (h : UsesThen tail acts) :
    UsesThen tail (.use :: acts) := by
  obtain ⟨n, rfl⟩ := h
  exact ⟨n + 1, rfl⟩

theorem UsesThen.self (tail : List Act) : UsesThen tail tail := ⟨0, rfl⟩

/-- What is left behind a use. -/
theorem UsesThen.of_use {tail acts : List Act} (htail : .use ∉ tail)
    (h : UsesThen tail (.use :: acts)) : UsesThen tail acts := by
  obtain ⟨n, hn⟩ := h
  cases n with
  | zero =>
    rw [List.replicate_zero, List.nil_append] at hn
    exact absurd (hn ▸ List.mem_cons_self) htail
  | succ n => exact ⟨n, (List.cons.inj hn).2⟩

/-- Nothing else than the tail is left behind an act that is no use. -/
theorem UsesThen.eq_of_ne {tail acts : List Act} {a : Act} (ha : a ≠ .use)
    (h : UsesThen tail (a :: acts)) : tail = a :: acts := by
  obtain ⟨n, hn⟩ := h
  cases n with
  | zero => exact hn.symm
  | succ n => exact absurd (List.cons.inj hn).1 ha

theorem replyActs_eq (bus : DirectoryBus) : UsesThen
    (if bus.payload.isSome ∧ ∃ message ∈ bus.header, message.type = XS_ERROR
      then [.close, .close] else [.close]) (replyActs bus) := by
  unfold replyActs
  cases bus.header with
  | none => simpa using (UsesThen.self _).use
  | some message =>
    cases bus.payload with
    | none => simpa using (UsesThen.self _).use.use
    | some payload => simpa using (UsesThen.self _).use.use

theorem keyActs_refused (hwrites : bus.writes = true) (hkey : bus.writesKey = true) :
    keyActs bus = .use :: .use :: replyActs bus := by
  rw [keyActs, if_neg (by simp [hwrites]), if_neg (by simp [hkey])]

theorem keyActs_failed (h : ¬ (bus.writes = true ∧ bus.writesKey = true)) :
    UsesThen [.close] (keyActs bus) := by
  unfold keyActs
  split
  · exact (UsesThen.self _).use
  · rename_i hwrites
    rw [if_pos (by simpa [hwrites] using h)]
    exact (UsesThen.self _).use.use

theorem readdirActs_eq (bus : DirectoryBus) :
    UsesThen [.close] (readdirActs bus) ∨ UsesThen [.exit] (readdirActs bus) := by
  unfold readdirActs
  by_cases hwrites : bus.writes = false
  · exact .inr (by simpa [hwrites] using (UsesThen.self _).use)
  · by_cases hkey : bus.writesKey = false
    · exact .inr (by simpa [hwrites, hkey] using (UsesThen.self _).use.use)
    · rw [if_neg hwrites, if_neg hkey]
      cases bus.header with
      | none => exact .inr (UsesThen.self _).use.use.use
      | some message =>
        cases bus.payload with
        | none => exact .inr (UsesThen.self _).use.use.use.use
        | some payload => exact .inl (UsesThen.self _).use.use.use.use

theorem acts_of_refused (h : Refused c bus) : UsesThen [.close, .close] (acts c bus) := by
  obtain ⟨hwrites, hpayload, hheader, hc⟩ := h
  have hreply := replyActs_eq bus
  rw [if_pos ⟨hpayload, hheader⟩] at hreply
  cases c with
  | readdir key => exact hc.elim
  | write key value =>
    rw [acts, writeActs, if_neg (by simp [hwrites])]
    exact hreply.use
  | _ =>
    rw [acts, keyActs_refused hwrites hc]
    exact hreply.use.use

theorem acts_of_not_refused (h : ¬ Refused c bus) :
    UsesThen [.close] (acts c bus) ∨ UsesThen [.exit] (acts c bus) := by
  have hreply := replyActs_eq bus
  cases c with
  | readdir key => exact readdirActs_eq bus
  | write key value =>
    rw [acts, writeActs]
    by_cases hwrites : bus.writes = false
    · rw [if_pos hwrites]
      exact .inl (UsesThen.self _).use
    · rw [if_neg fun hboth => h ⟨by simpa using hwrites, hboth.1, hboth.2, trivial⟩] at hreply
      rw [if_neg hwrites]
      exact .inl hreply.use
  | _ =>
    left
    rw [acts]
    by_cases hboth : bus.writes = true ∧ bus.writesKey = true
    · rw [if_neg fun hreply => h ⟨hboth.1, hreply.1, hreply.2, hboth.2⟩] at hreply
      rw [keyActs_refused hboth.1 hboth.2]
      exact hreply.use.use
    · exact keyActs_failed hboth

theorem acts_eq_cons (c : Command) (bus : DirectoryBus) : ∃ rest, acts c bus = .use :: rest := by
  cases c <;> exact ⟨_, rfl⟩

/-- Once a call has closed the descriptor it does not use it any more. -/
theorem exists_tail (c : Command) (bus : DirectoryBus) :
    ∃ tail, .use ∉ tail ∧ UsesThen tail (acts c bus) := by
  by_cases h : Refused c bus
  · exact ⟨_, by decide, acts_of_refused h⟩
  · rcases acts_of_not_refused h with h | h <;> exact ⟨_, by decide, h⟩

end Acts

section Threads

variable {T : Type*} [DecidableEq T] {possible : Command → DirectoryBus → Prop} {s s' : State T}
  {e : Event T} {t u : T} {fd n : ℕ} {rest tail : List Act}

/-- Every thread in a call owns its descriptor, and is to close it once at most. -/
def Kept (s : State T) : Prop :=
  ∀ t fd a rest, s.threads t = some (fd, a :: rest) →
    s.owner fd = some t ∧ (UsesThen [.close] (a :: rest) ∨ UsesThen [.exit] (a :: rest))

theorem Kept.step (hp : ∀ c bus, possible c bus → bus.opens = true → ¬ Refused c bus)
    (h : Kept s)
    (hs : Step possible s e s') : Kept s' := by
  intro u fd' a rest' hu
  cases hs with
  | @begin t c bus fd hposs hopens hidle hfree hlow =>
    by_cases hut : u = t
    · subst hut
      dsimp only at hu
      rw [Function.update_self] at hu
      obtain ⟨rfl, hacts⟩ := Prod.mk.inj (Option.some.inj hu)
      exact ⟨Function.update_self .., hacts ▸ acts_of_not_refused (hp c bus hposs hopens)⟩
    · dsimp only at hu
      rw [Function.update_of_ne hut] at hu
      obtain ⟨howner, hrest⟩ := h u fd' a rest' hu
      have hfd : fd' ≠ fd := fun hfd => by
        rw [hfd, hfree] at howner
        cases howner
      exact ⟨(Function.update_of_ne hfd ..).trans howner, hrest⟩
  | @use t fd rest ht =>
    by_cases hut : u = t
    · subst hut
      dsimp only at hu
      rw [Function.update_self] at hu
      obtain ⟨rfl, rfl⟩ := Prod.mk.inj (Option.some.inj hu)
      obtain ⟨howner, hrest⟩ := h u fd .use _ ht
      exact ⟨howner, hrest.imp (.of_use (by decide)) (.of_use (by decide))⟩
    · dsimp only at hu
      rw [Function.update_of_ne hut] at hu
      exact h u fd' a rest' hu
  | @close t fd rest ht =>
    obtain ⟨htowner, htrest⟩ := h t fd .close rest ht
    by_cases hut : u = t
    · subst hut
      dsimp only at hu
      rw [Function.update_self] at hu
      obtain ⟨-, rfl⟩ := Prod.mk.inj (Option.some.inj hu)
      rcases htrest with hclose | hexit
      · cases hclose.eq_of_ne (by decide)
      · cases hexit.eq_of_ne (by decide)
    · dsimp only at hu
      rw [Function.update_of_ne hut] at hu
      obtain ⟨howner, hrest⟩ := h u fd' a rest' hu
      have hfd : fd' ≠ fd := fun hfd => by
        rw [hfd, htowner] at howner
        exact hut (Option.some.inj howner).symm
      exact ⟨(Function.update_of_ne hfd ..).trans howner, hrest⟩
  | @finish t fd ht =>
    by_cases hut : u = t
    · subst hut
      dsimp only at hu
      rw [Function.update_self] at hu
      cases hu
    · dsimp only at hu
      rw [Function.update_of_ne hut] at hu
      exact h u fd' a rest' hu

/-- A thread that is alone owns its descriptor as long as it has a use for it. -/
def Ordered (s : State T) : Prop :=
  ∀ t fd acts, s.threads t = some (fd, acts) →
    ∃ tail, .use ∉ tail ∧ UsesThen tail acts ∧ (.use ∈ acts → s.owner fd = some t)

theorem Ordered.step [Subsingleton T] (h : Ordered s) (hs : Step possible s e s') :
    Ordered s' := by
  intro u fd' acts' hu
  cases hs with
  | @begin t c bus fd hposs hopens hidle hfree hlow =>
    obtain rfl := Subsingleton.elim u t
    dsimp only at hu
    rw [Function.update_self] at hu
    obtain ⟨rfl, rfl⟩ := Prod.mk.inj (Option.some.inj hu)
    obtain ⟨tail, htail, hacts⟩ := exists_tail c bus
    exact ⟨tail, htail, hacts, fun _ => Function.update_self ..⟩
  | @use t fd rest ht =>
    obtain rfl := Subsingleton.elim u t
    dsimp only at hu
    rw [Function.update_self] at hu
    obtain ⟨rfl, rfl⟩ := Prod.mk.inj (Option.some.inj hu)
    obtain ⟨tail, htail, hrest, howner⟩ := h u fd _ ht
    exact ⟨tail, htail, hrest.of_use htail, fun _ => howner List.mem_cons_self⟩
  | @close t fd rest ht =>
    obtain rfl := Subsingleton.elim u t
    dsimp only at hu
    rw [Function.update_self] at hu
    obtain ⟨rfl, rfl⟩ := Prod.mk.inj (Option.some.inj hu)
    obtain ⟨tail, htail, hrest, -⟩ := h u fd _ ht
    have hnot : .use ∉ rest := fun hmem =>
      htail (hrest.eq_of_ne (by decide) ▸ List.mem_cons_of_mem _ hmem)
    exact ⟨rest, hnot, .self rest, fun hmem => absurd hmem hnot⟩
  | @finish t fd ht =>
    obtain rfl := Subsingleton.elim u t
    dsimp only at hu
    rw [Function.update_self] at hu
    cases hu

/-- A thread can come to the end of its uses. -/
theorem reachable_uses (hs : Reachable (Step possible) (State.start T) s)
    (tail : List Act) (ht : s.threads t = some (fd, List.replicate n .use ++ tail)) :
    Reachable (Step possible) (State.start T)
      { s with threads := Function.update s.threads t (some (fd, tail)) } := by
  induction n generalizing s with
  | zero =>
    rw [List.replicate_zero, List.nil_append] at ht
    rwa [← ht, Function.update_eq_self]
  | succ n ih =>
    have hnext := ih (hs.next (.use ht)) (Function.update_self ..)
    rwa [Function.update_idem] at hnext

/-- One thread closes the descriptor that another has just been given. -/
theorem not_ownUse (htu : t ≠ u) (hposs : possible c bus) (hopens : bus.opens = true)
    (hrefused : Refused c bus) :
    ∃ s, Reachable (Step possible) (State.start T) s ∧ ¬ OwnUse s := by
  obtain ⟨n, hacts⟩ := acts_of_refused hrefused
  obtain ⟨rest, huse⟩ := acts_eq_cons c bus
  have hnone (x : ℕ) (hx : x < 0) (s : State T) : s.owner x ≠ none := absurd hx (Nat.not_lt_zero x)
  have hs : Reachable (Step possible) (State.start T) _ :=
    Reachable.next ⟨[], .start⟩ (.begin (t := t) hposs hopens rfl rfl fun x hx => hnone x hx _)
  have hs := reachable_uses (t := t) (n := n) hs [.close, .close]
    (by rw [← hacts]; exact Function.update_self ..)
  have hs := hs.next (.close (Function.update_self ..))
  have hs := hs.next (@Step.begin T _ possible _ u c bus 0 hposs hopens
    (by simp [State.start, Function.update_of_ne htu.symm]) (by simp)
    fun x hx => hnone x hx _)
  have hs := hs.next (@Step.close T _ possible _ t 0 []
    (by simp [Function.update_of_ne htu]))
  refine ⟨_, hs, fun hown => ?_⟩
  have howner := hown u 0 rest (by simp [Function.update_of_ne htu.symm, huse])
  dsimp only at howner
  rw [Function.update_self] at howner
  cases howner

/-- Whatever the order of their steps, the threads read and write on the descriptors that they
opened, if and only if there is one of them at most or the store refuses nothing that they ask. -/
theorem ownUse_iff (T : Type*) [DecidableEq T] (possible : Command → DirectoryBus → Prop) :
    (∀ s, Reachable (Step possible) (State.start T) s → OwnUse s) ↔
      Subsingleton T ∨ ∀ c bus, possible c bus → bus.opens = true → ¬ Refused c bus := by
  constructor
  · intro hall
    by_contra hnot
    rw [not_or, not_subsingleton_iff_nontrivial] at hnot
    obtain ⟨⟨t, u, htu⟩, hposs⟩ := hnot
    push Not at hposs
    obtain ⟨c, bus, hposs, hopens, hrefused⟩ := hposs
    obtain ⟨s, hs, hown⟩ := not_ownUse htu hposs hopens hrefused
    exact hown (hall s hs)
  · rintro (hT | hposs) s hs
    · have hordered : Ordered s := hs.invariant (fun _ _ _ h => by cases h)
        fun _ _ _ h hstep => h.step hstep
      intro t fd rest ht
      obtain ⟨tail, -, -, howner⟩ := hordered t fd _ ht
      exact howner List.mem_cons_self
    · have hkept : Kept s := hs.invariant (fun _ _ _ _ h => by cases h)
        fun _ _ _ h hstep => h.step hposs hstep
      exact fun t fd rest ht => (hkept t fd .use rest ht).1

end Threads

end Redx.XenStore.Descriptors
