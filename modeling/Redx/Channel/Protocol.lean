import Redx.Library.Run
import Redx.Channel.Message
import Mathlib.Logic.Function.Basic

/-!
# Clients and a service on one queue

The service takes the requests of type 1 in turn, drops those whose sender is gone, evaluates
the others and replies to the sender's process id. A client that asks waits for the first message
of its own id. A client that tells leaves the request to a child process, which waits a minute
for the reply and exits.
-/
namespace Redx.Channel
open Library

/-- What a process of a given id is doing. -/
inductive Process where
  | absent
  | idle
  | asking (serial : ℕ) (request : List UInt8)
  | forked (request : List UInt8)
  | telling (elapsed : ℕ)
  | finished
  deriving DecidableEq, Repr

/-- One evaluation by the service: the script, the code and the result. -/
structure Evaluation where
  serial : ℕ
  script : List UInt8
  error : ℤ
  result : List UInt8
  deriving DecidableEq, Repr

/-- Where `Service::run` is: at `receive`, with a request in hand, or about to reply. -/
inductive Service where
  | waiting
  | received (request : Message)
  | evaluated (sender : ℕ) (evaluation : Evaluation)
  deriving DecidableEq, Repr

/-- What an ask returned, and what it had asked. -/
structure Answer where
  serial : ℕ
  request : List UInt8
  error : ℤ
  body : List UInt8
  deriving DecidableEq, Repr

structure State where
  queue : List Message
  processes : ℕ → Process
  service : Service
  nextSerial : ℕ
  evaluations : List Evaluation
  answers : List Answer

def State.initial : State where
  queue := []
  processes := fun _ => .absent
  service := .waiting
  nextSerial := 0
  evaluations := []
  answers := []

inductive Event where
  | spawn (pid : ℕ)
  | exit (pid : ℕ)
  | ask (pid : ℕ) (request : List UInt8)
  | answer (pid : ℕ)
  | fork (pid child : ℕ) (request : List UInt8)
  | tell (child : ℕ)
  | poll (child : ℕ)
  | receive
  | evaluate (error : ℤ) (result : List UInt8)
  | reply
  deriving DecidableEq, Repr

namespace State

def setProcess (s : State) (pid : ℕ) (process : Process) : State :=
  { s with processes := Function.update s.processes pid process }

@[simp] theorem setProcess_self (s : State) (pid : ℕ) (process : Process) :
    (s.setProcess pid process).processes pid = process := Function.update_self ..

theorem setProcess_of_ne (s : State) {p pid : ℕ} (h : p ≠ pid) (process : Process) :
    (s.setProcess pid process).processes p = s.processes p := Function.update_of_ne h ..

/-- A request enters the queue under a new serial number. -/
def send (s : State) (pid : ℕ) (request : List UInt8) : State :=
  { s with
    queue := s.queue ++ [clientMessage pid request s.nextSerial]
    nextSerial := s.nextSerial + 1 }

end State

/-- The seconds that `tell` waits for its reply. -/
def timeLimit : ℕ := 60

/-- The state after an event; `none` when the event cannot happen there. -/
def step (s : State) : Event → Option State
  | .spawn pid =>
    if 0 < pid ∧ s.processes pid = .absent then some (s.setProcess pid .idle) else none
  | .exit pid => if s.processes pid = .absent then none else some (s.setProcess pid .absent)
  | .ask pid request =>
    if s.processes pid = .idle then
      some ((s.send pid request).setProcess pid (.asking s.nextSerial request))
    else none
  | .answer pid =>
    match s.processes pid with
    | .asking serial request =>
      match msgrcv s.queue pid with
      | none => none
      | some (m, queue) =>
        some { s.setProcess pid .idle with
          queue := queue
          answers := ⟨serial, request, m.error, strlcpy m.body sizeofBuffer⟩ :: s.answers }
    | _ => none
  | .fork pid child request =>
    if s.processes pid = .idle ∧ 0 < child ∧ s.processes child = .absent then
      some (s.setProcess child (.forked request))
    else none
  | .tell child =>
    match s.processes child with
    | .forked request => some ((s.send child request).setProcess child (.telling 0))
    | _ => none
  | .poll child =>
    match s.processes child with
    | .telling elapsed =>
      match msgrcv s.queue child with
      | some (_, queue) => some { s.setProcess child .finished with queue := queue }
      | none =>
        if elapsed + 1 < timeLimit then some (s.setProcess child (.telling (elapsed + 1)))
        else some (s.setProcess child .finished)
    | _ => none
  | .receive =>
    match s.service with
    | .waiting =>
      match msgrcv s.queue serviceType with
      | none => none
      | some (m, queue) =>
        some { s with
          queue := queue
          service := .received { m with body := strlcpy m.body sizeofBuffer } }
    | _ => none
  | .evaluate error result =>
    match s.service with
    | .received m =>
      -- `kill(sender, 0)` fails for a process that is gone
      if s.processes m.src = .absent then some { s with service := .waiting }
      else
        let evaluation : Evaluation := ⟨m.serial, m.body, error, result⟩
        some { s with
          service := .evaluated m.src evaluation
          evaluations := evaluation :: s.evaluations }
    | _ => none
  | .reply =>
    match s.service with
    | .evaluated sender v =>
      some { s with
        queue := s.queue ++
          [serviceMessage sender v.error (strlcpy v.result sizeofBuffer) v.serial]
        service := .waiting }
    | _ => none

def Step (s : State) (e : Event) (t : State) : Prop := step s e = some t

/-- The answer is what the service produced by evaluating the request of the same ask. -/
def Answer.Right (a : Answer) (evaluations : List Evaluation) : Prop :=
  ∃ v ∈ evaluations, v.serial = a.serial ∧ v.script = a.request ∧ a.error = v.error ∧
    a.body = v.result

instance (a : Answer) (evaluations : List Evaluation) : Decidable (a.Right evaluations) :=
  inferInstanceAs (Decidable (∃ v ∈ evaluations, _))

def State.Matched (s : State) : Prop := ∀ a ∈ s.answers, a.Right s.evaluations

instance (s : State) : Decidable s.Matched := inferInstanceAs (Decidable (∀ a ∈ s.answers, _))

/-- The service has a request of the process in hand, or a reply to it. -/
def Service.Concerns : Service → ℕ → Prop
  | .waiting, _ => False
  | .received m, pid => m.src = pid
  | .evaluated sender _, pid => sender = pid

instance : (service : Service) → (pid : ℕ) → Decidable (service.Concerns pid)
  | .waiting, _ => inferInstanceAs (Decidable False)
  | .received m, pid => inferInstanceAs (Decidable (m.src = pid))
  | .evaluated sender _, pid => inferInstanceAs (Decidable (sender = pid))

/-- Nothing that stems from an earlier process of this id, or from an earlier request, is queued
or with the service, and the id is not the service's type. -/
def State.QuietFor (s : State) (pid : ℕ) : Prop :=
  pid ≠ serviceType ∧ ¬ s.service.Concerns pid ∧
    ∀ m ∈ s.queue, m.dst ≠ pid ∧ (m.dst = serviceType → m.src ≠ pid)

instance (s : State) (pid : ℕ) : Decidable (s.QuietFor pid) := inferInstanceAs (Decidable (_ ∧ _))

/-- A message holds the whole string. -/
def FitsBody (string : List UInt8) : Prop := string.length < sizeofBody

instance (string : List UInt8) : Decidable (FitsBody string) := inferInstanceAs (Decidable (_ < _))

def Process.Asks : Process → Prop
  | .asking _ _ => True
  | .absent | .idle | .forked _ | .telling _ | .finished => False

instance : (process : Process) → Decidable process.Asks
  | .asking _ _ => .isTrue trivial
  | .absent | .idle | .forked _ | .telling _ | .finished => .isFalse id

/-- The service has a request in hand from a process that waits for the answer. -/
def Service.Serves (processes : ℕ → Process) : Service → Prop
  | .received m => (processes m.src).Asks
  | .waiting | .evaluated _ _ => False

instance (processes : ℕ → Process) : (service : Service) → Decidable (service.Serves processes)
  | .received m => inferInstanceAs (Decidable (processes m.src).Asks)
  | .waiting | .evaluated _ _ => .isFalse id

/-- Whoever asks is quiet, and neither the request nor the result of an ask is cut. -/
def Proper (s : State) : Event → Prop
  | .ask pid request => s.QuietFor pid ∧ FitsBody request
  | .evaluate _ result => s.service.Serves s.processes → FitsBody result
  | _ => True

instance (s : State) : (e : Event) → Decidable (Proper s e)
  | .ask pid request => inferInstanceAs (Decidable (s.QuietFor pid ∧ FitsBody request))
  | .evaluate _ result =>
    inferInstanceAs (Decidable (s.service.Serves s.processes → FitsBody result))
  | .spawn _ | .exit _ | .answer _ | .fork .. | .tell _ | .poll _ => .isTrue trivial
  | .receive | .reply => .isTrue trivial

/-- All that concerns the process `pid` in the queue and with the service stems from the request
that it waits for. -/
structure Own (queue : List Message) (service : Service) (evaluations : List Evaluation)
    (pid serial : ℕ) (request : List UInt8) : Prop where
  client : pid ≠ serviceType
  fits : FitsBody request
  requests : ∀ m ∈ queue, m.dst = serviceType → m.src = pid → m.serial = serial ∧ m.body = request
  replies : ∀ m ∈ queue, m.dst = pid →
    Answer.Right ⟨serial, request, m.error, strlcpy m.body sizeofBuffer⟩ evaluations
  received : ∀ m, service = .received m → m.src = pid → m.serial = serial ∧ m.body = request
  evaluated : ∀ v sender, service = .evaluated sender v → sender = pid →
    v ∈ evaluations ∧ v.serial = serial ∧ v.script = request ∧ FitsBody v.result

variable {queue queue' : List Message} {service : Service} {evaluations : List Evaluation}
  {pid serial : ℕ} {request : List UInt8} {s t : State} {e : Event}

theorem Answer.Right.mono {a : Answer} (h : a.Right evaluations)
    {evaluations' : List Evaluation} (hsub : ∀ v ∈ evaluations, v ∈ evaluations') :
    a.Right evaluations' := by
  obtain ⟨v, hv, hrest⟩ := h
  exact ⟨v, hsub v hv, hrest⟩

/-- Messages of other processes may come, and messages may go. -/
theorem Own.of_queue (h : Own queue service evaluations pid serial request)
    (hq : ∀ m ∈ queue', m ∈ queue ∨ m.dst ≠ pid ∧ (m.dst = serviceType → m.src ≠ pid)) :
    Own queue' service evaluations pid serial request where
  client := h.client
  fits := h.fits
  requests m hm hdst hsrc := by
    rcases hq m hm with hm | ⟨-, hother⟩
    · exact h.requests m hm hdst hsrc
    · exact absurd hsrc (hother hdst)
  replies m hm hdst := by
    rcases hq m hm with hm | ⟨hother, -⟩
    · exact h.replies m hm hdst
    · exact absurd hdst hother
  received := h.received
  evaluated := h.evaluated

theorem FitsBody.strlcpy {string : List UInt8} (h : FitsBody string) {size : ℕ}
    (hsize : sizeofBody ≤ size) : strlcpy string size = string := by
  have hlt : string.length < sizeofBody := h
  exact List.take_of_length_le (by omega)

/-- A process that asks while it is quiet owns all that concerns it. -/
theorem Own.ask (hq : s.QuietFor pid) (hfits : FitsBody request) :
    Own (s.send pid request).queue s.service s.evaluations pid s.nextSerial request where
  client := hq.1
  fits := hfits
  requests m hm hdst hsrc := by
    rcases List.mem_append.mp hm with hm | hm
    · exact absurd hsrc ((hq.2.2 m hm).2 hdst)
    · rw [List.mem_singleton.mp hm]
      exact ⟨rfl, hfits.strlcpy (Nat.le_refl _)⟩
  replies m hm hdst := by
    rcases List.mem_append.mp hm with hm | hm
    · exact absurd hdst (hq.2.2 m hm).1
    · rw [List.mem_singleton.mp hm] at hdst
      exact absurd hdst.symm hq.1
  received m hm hsrc := absurd (hm ▸ hsrc) hq.2.1
  evaluated v sender hv hsender := absurd (hv ▸ hsender) hq.2.1

/-- The service takes the first request. -/
theorem Own.receive (h : Own queue .waiting evaluations pid serial request) {m : Message}
    (hm : msgrcv queue serviceType = some (m, queue')) :
    Own queue' (.received { m with body := strlcpy m.body sizeofBuffer }) evaluations pid serial
      request := by
  obtain ⟨hmem, hdst, hrest⟩ := msgrcv_some hm
  have h' := h.of_queue fun x hx => .inl (hrest x hx)
  refine ⟨h'.client, h'.fits, h'.requests, h'.replies, ?_, nofun⟩
  intro m' hm' hsrc
  obtain rfl := Service.received.inj hm'
  obtain ⟨hserial, hbody⟩ := h.requests m hmem hdst hsrc
  refine ⟨hserial, ?_⟩
  dsimp only
  rw [hbody]
  exact h.fits.strlcpy (by decide)

/-- The service evaluates the request in its hands. -/
theorem Own.evaluate {m : Message} (h : Own queue (.received m) evaluations pid serial request)
    (error : ℤ) {result : List UInt8} (hfits : m.src = pid → FitsBody result) :
    Own queue (.evaluated m.src ⟨m.serial, m.body, error, result⟩)
      (⟨m.serial, m.body, error, result⟩ :: evaluations) pid serial request where
  client := h.client
  fits := h.fits
  requests := h.requests
  replies m' hm' hdst := (h.replies m' hm' hdst).mono fun v hv => List.mem_cons_of_mem _ hv
  received := nofun
  evaluated v sender hv hsender := by
    obtain ⟨rfl, rfl⟩ := Service.evaluated.inj hv
    obtain ⟨hserial, hbody⟩ := h.received m rfl hsender
    exact ⟨List.mem_cons_self, hserial, hbody, hfits hsender⟩

/-- The service replies. -/
theorem Own.reply {sender : ℕ} {v : Evaluation}
    (h : Own queue (.evaluated sender v) evaluations pid serial request) :
    Own (queue ++ [serviceMessage sender v.error (strlcpy v.result sizeofBuffer) v.serial])
      .waiting evaluations pid serial request where
  client := h.client
  fits := h.fits
  requests m hm hdst hsrc := by
    rcases List.mem_append.mp hm with hm | hm
    · exact h.requests m hm hdst hsrc
    · rw [List.mem_singleton.mp hm] at hsrc
      exact absurd hsrc.symm h.client
  replies m hm hdst := by
    rcases List.mem_append.mp hm with hm | hm
    · exact h.replies m hm hdst
    · rw [List.mem_singleton.mp hm] at hdst ⊢
      obtain ⟨hv, hserial, hscript, hfits⟩ := h.evaluated v sender rfl hdst
      refine ⟨v, hv, hserial, hscript, rfl, ?_⟩
      dsimp only [serviceMessage]
      rw [hfits.strlcpy (by decide), hfits.strlcpy (Nat.le_refl _), hfits.strlcpy (by decide)]
  received := nofun
  evaluated := nofun

/-- Every process that waits for an answer owns what concerns it, and all answers so far match. -/
structure Inv (s : State) : Prop where
  own : ∀ pid serial request, s.processes pid = .asking serial request →
    Own s.queue s.service s.evaluations pid serial request
  matched : s.Matched

theorem Inv.initial : Inv .initial := ⟨nofun, nofun⟩

/-- A process that does not come to wait changes nothing for the others. -/
theorem Inv.setProcess (h : Inv s) {process : Process}
    (hp : ∀ serial request, process ≠ .asking serial request) : Inv (s.setProcess pid process) := by
  refine ⟨fun p serial request hproc => ?_, h.matched⟩
  by_cases hpid : p = pid
  · rw [hpid, State.setProcess_self] at hproc
    exact absurd hproc (hp _ _)
  · rw [State.setProcess_of_ne s hpid] at hproc
    exact h.own p serial request hproc

/-- A message that another process sends to the service concerns no one who waits. -/
theorem Inv.send (h : Inv s) {p : ℕ} (hne : p ≠ pid)
    (hproc : s.processes p = .asking serial request)
    (message : List UInt8) :
    Own (s.send pid message).queue s.service s.evaluations p serial request := by
  have hown := h.own p serial request hproc
  refine hown.of_queue fun m hm => ?_
  rcases List.mem_append.mp hm with hm | hm
  · exact .inl hm
  · rw [List.mem_singleton.mp hm]
    exact .inr ⟨fun hdst => hown.client hdst.symm, fun _ hsrc => hne hsrc.symm⟩

/-- Messages leaving the queue leave the rest as it was. -/
theorem Inv.dequeue (h : Inv s) (hq : ∀ m ∈ queue', m ∈ s.queue) :
    Inv { s with queue := queue' } :=
  ⟨fun p serial request hproc => (h.own p serial request hproc).of_queue
    fun m hm => .inl (hq m hm), h.matched⟩

theorem Inv.ask (h : Inv s) (hq : s.QuietFor pid) (hfits : FitsBody request) :
    Inv ((s.send pid request).setProcess pid (.asking s.nextSerial request)) := by
  refine ⟨fun p serial request' hproc => ?_, h.matched⟩
  by_cases hpid : p = pid
  · rw [hpid, State.setProcess_self] at hproc
    obtain ⟨rfl, rfl⟩ := Process.asking.inj hproc
    rw [hpid]
    exact Own.ask hq hfits
  · rw [State.setProcess_of_ne _ hpid] at hproc
    exact h.send hpid hproc request

theorem Inv.answer (h : Inv s) (hproc : s.processes pid = .asking serial request) {m : Message}
    (hm : msgrcv s.queue pid = some (m, queue')) :
    Inv { s.setProcess pid .idle with
      queue := queue'
      answers := ⟨serial, request, m.error, strlcpy m.body sizeofBuffer⟩ :: s.answers } := by
  obtain ⟨hmem, hdst, hrest⟩ := msgrcv_some hm
  have hidle : Inv (s.setProcess pid .idle) := h.setProcess nofun
  refine ⟨(hidle.dequeue hrest).own, ?_⟩
  exact List.forall_mem_cons.mpr ⟨(h.own pid serial request hproc).replies m hmem hdst, h.matched⟩

theorem Inv.tell (h : Inv s) :
    Inv ((s.send pid request).setProcess pid (.telling 0)) := by
  refine ⟨fun p serial request' hasking => ?_, h.matched⟩
  by_cases hpid : p = pid
  · rw [hpid, State.setProcess_self] at hasking
    cases hasking
  · rw [State.setProcess_of_ne _ hpid] at hasking
    exact h.send hpid hasking request

theorem Inv.receive (h : Inv s) (hservice : s.service = .waiting) {m : Message}
    (hm : msgrcv s.queue serviceType = some (m, queue')) :
    Inv { s with
      queue := queue'
      service := .received { m with body := strlcpy m.body sizeofBuffer } } := by
  refine ⟨fun p serial request hproc => ?_, h.matched⟩
  have hown := h.own p serial request hproc
  rw [hservice] at hown
  exact hown.receive hm

theorem Inv.drop (h : Inv s) : Inv { s with service := .waiting } :=
  ⟨fun p serial request hproc =>
    let hown := h.own p serial request hproc
    ⟨hown.client, hown.fits, hown.requests, hown.replies, nofun, nofun⟩, h.matched⟩

theorem Inv.evaluate (h : Inv s) {m : Message} (hservice : s.service = .received m) (error : ℤ)
    {result : List UInt8} (hfits : (s.processes m.src).Asks → FitsBody result) :
    Inv { s with
      service := .evaluated m.src ⟨m.serial, m.body, error, result⟩
      evaluations := ⟨m.serial, m.body, error, result⟩ :: s.evaluations } := by
  refine ⟨fun p serial request hproc => ?_, fun a ha => ?_⟩
  · have hown := h.own p serial request hproc
    rw [hservice] at hown
    refine hown.evaluate error fun hsrc => hfits ?_
    rw [hsrc, hproc]
    trivial
  · exact (h.matched a ha).mono fun v hv => List.mem_cons_of_mem _ hv

theorem Inv.reply (h : Inv s) {sender : ℕ} {v : Evaluation}
    (hservice : s.service = .evaluated sender v) :
    Inv { s with
      queue := s.queue ++
        [serviceMessage sender v.error (strlcpy v.result sizeofBuffer) v.serial]
      service := .waiting } := by
  refine ⟨fun p serial request hproc => ?_, h.matched⟩
  have hown := h.own p serial request hproc
  rw [hservice] at hown
  exact hown.reply

/-- Every event keeps the invariant, provided that it is proper. -/
theorem Inv.step (hi : Inv s) (hq : Proper s e) (h : Step s e t) : Inv t := by
  rw [Step] at h
  cases e with
  | spawn pid =>
    simp only [Channel.step, Option.ite_none_right_eq_some, Option.some.injEq] at h
    obtain ⟨-, rfl⟩ := h
    exact hi.setProcess nofun
  | exit pid =>
    simp only [Channel.step, Option.ite_none_left_eq_some, Option.some.injEq] at h
    obtain ⟨-, rfl⟩ := h
    exact hi.setProcess nofun
  | ask pid request =>
    simp only [Channel.step, Option.ite_none_right_eq_some, Option.some.injEq] at h
    obtain ⟨-, rfl⟩ := h
    exact hi.ask hq.1 hq.2
  | answer pid =>
    simp only [Channel.step] at h
    split at h
    · rename_i serial request hproc
      split at h
      · cases h
      · rename_i m queue' hm
        obtain rfl := Option.some.inj h
        exact hi.answer hproc hm
    · cases h
  | fork pid child request =>
    simp only [Channel.step, Option.ite_none_right_eq_some, Option.some.injEq] at h
    obtain ⟨-, rfl⟩ := h
    exact hi.setProcess nofun
  | tell child =>
    simp only [Channel.step] at h
    split at h
    · obtain rfl := Option.some.inj h
      exact hi.tell
    · cases h
  | poll child =>
    simp only [Channel.step] at h
    split at h
    · split at h
      · rename_i m queue' hm
        obtain rfl := Option.some.inj h
        have hfinished : Inv (s.setProcess child .finished) := hi.setProcess nofun
        exact hfinished.dequeue (msgrcv_some hm).2.2
      · split at h
        · obtain rfl := Option.some.inj h
          exact hi.setProcess nofun
        · obtain rfl := Option.some.inj h
          exact hi.setProcess nofun
    · cases h
  | receive =>
    simp only [Channel.step] at h
    split at h
    · rename_i hservice
      split at h
      · cases h
      · rename_i m queue' hm
        obtain rfl := Option.some.inj h
        exact hi.receive hservice hm
    · cases h
  | evaluate error result =>
    simp only [Channel.step] at h
    split at h
    · rename_i m hservice
      split at h
      · obtain rfl := Option.some.inj h
        exact hi.drop
      · obtain rfl := Option.some.inj h
        refine hi.evaluate hservice error fun hasks => hq ?_
        rw [hservice]
        exact hasks
    · cases h
  | reply =>
    simp only [Channel.step] at h
    split at h
    · rename_i sender v hservice
      obtain rfl := Option.some.inj h
      exact hi.reply hservice
    · cases h

/-- In a run in which every process that asks is quiet and nothing is cut that is asked or
answered, every ask returns what the service produced by evaluating its own request. -/
theorem answers_matched {h : List (State × Event)} (hr : Run Step .initial h s)
    (hm : Meets Proper h) : Always State.Matched h s := by
  obtain ⟨hall, hlast⟩ := hr.always Inv.initial (fun _ _ _ hi hq hs => hi.step hq hs) hm
  exact ⟨fun x hx => (hall x hx).matched, hlast.matched⟩

/-- Two processes ask while a tell is under way. -/
def overlapping : List Event := [
  .spawn 5, .spawn 6, .ask 5 [65], .fork 6 7 [66], .ask 6 [67], .receive, .tell 7, .evaluate 0 [68],
  .reply, .receive, .evaluate 1 [69], .answer 5, .poll 7, .reply, .receive,
  .evaluate 0 (List.replicate 1012 70), .answer 6, .reply, .poll 7]

theorem answers_matched_run : ∃ (h : List (State × Event)) (s : State),
    follow step .initial overlapping = some (h, s) ∧ s.answers.length = 2 ∧
      Always State.Matched h s := by
  have hf : (follow step .initial overlapping).any (fun x => x.2.answers.length = 2 ∧
      ∀ y ∈ x.1, Proper y.1 y.2) = true := by
    decide +kernel
  obtain ⟨⟨h, s⟩, hx, hgood⟩ := (Option.any_eq_true ..).mp hf
  obtain ⟨hanswers, hproper⟩ := of_decide_eq_true hgood
  exact ⟨h, s, hx, hanswers, answers_matched (.of_follow hx) hproper⟩

/-- A tell gives up while its request is being evaluated; the reply stays queued and is what a
later process of the same id gets for its own request. Another process asks with 1012 characters,
of which the service evaluates 1011. -/
theorem stale_reply :
    (∃ h s, follow step .initial ([.spawn 5, .fork 5 7 [65], .tell 7, .receive, .evaluate 0 [66]] ++
      List.replicate 60 (.poll 7) ++ [.exit 7, .reply, .spawn 7, .ask 7 [67], .answer 7]) =
        some (h, s) ∧ Run Step .initial h s ∧ ¬ s.Matched) ∧
    ∃ h s, follow step .initial [.spawn 5, .ask 5 (List.replicate 1012 65), .receive,
      .evaluate 0 [66], .reply, .answer 5] = some (h, s) ∧ Run Step .initial h s ∧ ¬ s.Matched := by
  have hstale : (follow step .initial ([.spawn 5, .fork 5 7 [65], .tell 7, .receive,
      .evaluate 0 [66]] ++ List.replicate 60 (.poll 7) ++ [.exit 7, .reply, .spawn 7,
      .ask 7 [67], .answer 7])).any (fun x => !decide x.2.Matched) = true := by
    decide +kernel
  have hcut : (follow step .initial [.spawn 5, .ask 5 (List.replicate 1012 65), .receive,
      .evaluate 0 [66], .reply, .answer 5]).any (fun x => !decide x.2.Matched) = true := by
    decide +kernel
  obtain ⟨x, hx, hbad⟩ := (Option.any_eq_true ..).mp hstale
  obtain ⟨y, hy, hbad'⟩ := (Option.any_eq_true ..).mp hcut
  exact ⟨⟨x.1, x.2, hx, .of_follow hx, by simpa using hbad⟩,
    y.1, y.2, hy, .of_follow hy, by simpa using hbad'⟩

end Redx.Channel
