import Redx.Library.Drain
import Redx.Channel.Framing
import Mathlib.Algebra.GroupWithZero.Nat
import Mathlib.Algebra.Order.BigOperators.Group.List
import Mathlib.Algebra.Order.Group.Nat
import Mathlib.Data.Finset.Card

/-!
# The room in the queue

Requests and replies share one queue, and `msgsnd` blocks while a message does not fit. A service
that blocks in its reply takes no request out of the queue.
-/
namespace Redx.Channel.Capacity
open Library Strings

/-- The processes that use the queue over its whole time. No id is given to two of them. -/
structure Clients where
  pids : Finset ℕ
  one_lt : ∀ pid ∈ pids, serviceType < pid

/-- What a process is doing: it is in `msgsnd` with a request, it waits for the reply, or it has
exited, as a `tell` does after a minute. `kill` still finds it until its parent reaps it. -/
inductive Process where
  | idle
  | sending (message : CString)
  | waiting
  | gone

/-- Where `Service::run` is: in `receive`, with a request in hand, or in `Channel::send`. -/
inductive Service where
  | receiving
  | evaluating (request : Message)
  | replying (reply : Sending)

structure State where
  queue : List Sending
  process : ℕ → Process
  service : Service

def State.start : State := ⟨[], fun _ => .idle, .receiving⟩

/-- The bytes in a queue, `q_cbytes`. -/
def bytes (queue : List Sending) : ℕ := (queue.map Sending.size).sum

/-- A message fits in a queue of so many bytes, `q_qbytes`. -/
def Room (qbytes : ℕ) (queue : List Sending) (m : Sending) : Prop :=
  m.size + bytes queue ≤ qbytes ∧ 1 + queue.length ≤ qbytes

/-- `strlcpy( response, Tcl_GetStringResult(interp), sizeof(response) )` -/
def response (result : CString) : CString :=
  ⟨strlcpy result.chars sizeofBuffer, fun h => result.noNul (List.mem_of_mem_take h)⟩

inductive Event where
  | ask (pid : ℕ)
  | exit (pid : ℕ)
  | send (pid : ℕ)
  | answer (pid : ℕ)
  | receive
  | evaluate
  | drop
  | reply

/-- What those who wait and the service do, and nobody else. -/
def Event.Serves : Event → Prop
  | .ask _ | .exit _ => False
  | .send _ | .answer _ | .receive | .evaluate | .drop | .reply => True

inductive Step (clients : Clients) (qbytes : ℕ) : State → Event → State → Prop
  | ask {s : State} {pid : ℕ} (message : CString) : pid ∈ clients.pids → s.process pid = .idle →
      Step clients qbytes s (.ask pid)
        { s with process := Function.update s.process pid (.sending message) }
  | exit {s : State} {pid : ℕ} : pid ∈ clients.pids →
      Step clients qbytes s (.exit pid)
        { s with process := Function.update s.process pid .gone }
  | send {s : State} {pid : ℕ} {message : CString} : s.process pid = .sending message →
      Room qbytes s.queue (clientSend pid message 0) →
      Step clients qbytes s (.send pid) { s with
        queue := s.queue ++ [clientSend pid message 0]
        process := Function.update s.process pid .waiting }
  | answer {s : State} {pid : ℕ} {before after : List Sending} {m : Sending} :
      s.process pid = .waiting → s.queue = before ++ m :: after → m.message.dst = pid →
      (∀ x ∈ before, x.message.dst ≠ pid) →
      Step clients qbytes s (.answer pid) { s with
        queue := before ++ after
        process := Function.update s.process pid .idle }
  | receive {s : State} {before after : List Sending} {m : Sending} :
      s.service = .receiving → s.queue = before ++ m :: after → m.message.dst = serviceType →
      (∀ x ∈ before, x.message.dst ≠ serviceType) →
      Step clients qbytes s .receive { s with
        queue := before ++ after
        service := .evaluating m.message }
  | evaluate {s : State} {request : Message} (error : ℤ) (result : CString) :
      s.service = .evaluating request →
      Step clients qbytes s .evaluate
        { s with service := .replying (serviceSend request.src error (response result) 0) }
  | drop {s : State} {request : Message} :
      s.service = .evaluating request → s.process request.src = .gone →
      Step clients qbytes s .drop { s with service := .receiving }
  | reply {s : State} {r : Sending} : s.service = .replying r → Room qbytes s.queue r →
      Step clients qbytes s .reply { s with
        queue := s.queue ++ [r]
        service := .receiving }

/-- Nobody waits, and the service is ready for the next request. -/
def State.Rest (s : State) : Prop :=
  s.service = .receiving ∧ ∀ pid, s.process pid = .idle ∨ s.process pid = .gone

/-- Whoever waits can be served, whatever has happened before. -/
def Live (clients : Clients) (qbytes : ℕ) : Prop :=
  ∀ s, Reachable (Step clients qbytes) .start s →
    Drains (Step clients qbytes) Event.Serves State.Rest s

/-- The largest size that is declared for a message: a string of 1012 characters is not found too
long, and its NUL is counted. -/
def largest : ℕ := sizeofPayload + 1

/-- The process that a message comes from or goes to. -/
def owner (m : Sending) : ℕ :=
  if m.message.dst = serviceType then m.message.src else m.message.dst

def Service.owners : Service → List ℕ
  | .receiving => []
  | .evaluating request => [request.src]
  | .replying r => [r.message.dst]

def State.owners (s : State) : List ℕ := s.queue.map owner ++ s.service.owners

/-- Each process has one message at most, in the queue or with the service, and has one while it
waits. -/
structure State.Inv (clients : Clients) (s : State) : Prop where
  nodup : s.owners.Nodup
  waits : ∀ pid, s.process pid = .waiting → pid ∈ s.owners
  owned : ∀ pid ∈ s.owners, pid ∈ clients.pids ∧
    (s.process pid = .waiting ∨ s.process pid = .gone)
  active : ∀ pid, s.process pid = .idle ∨ pid ∈ clients.pids
  small : ∀ m ∈ s.queue, m.size ≤ largest
  pending : ∀ r, s.service = .replying r → r.size ≤ largest

variable {clients : Clients} {qbytes pid : ℕ} {s t : State} {e : Event} {m r : Sending}
  {queue before after : List Sending} {message : CString} {process : Process}

section Sizes

theorem sending_size_le (m : Message) (message : CString) : (sending m message).size ≤ largest := by
  rw [largest, show sizeofPayload = 1028 from rfl]
  cases h : (sending m message).truncated with
  | true =>
    rw [sending_size_of_truncated h]
    decide
  | false =>
    rw [sending_size_of_not_truncated h]
    rw [sending_truncated] at h
    have hle := of_decide_eq_false h
    omega

theorem bytes_append (queue queue' : List Sending) :
    bytes (queue ++ queue') = bytes queue + bytes queue' := by
  simp [bytes]

theorem bytes_le (h : ∀ m ∈ queue, m.size ≤ largest) : bytes queue ≤ queue.length * largest := by
  have hle := List.sum_le_card_nsmul (queue.map Sending.size) largest (by simpa using h)
  simpa [bytes] using hle

theorem bytes_eq (h : ∀ m ∈ queue, m.size = largest) : bytes queue = queue.length * largest := by
  have heq := List.sum_eq_card_nsmul (queue.map Sending.size) largest (by simpa using h)
  simpa [bytes] using heq

/-- A message fits where not all others have one in the queue. -/
theorem room_of_length (hfits : clients.pids.card * largest ≤ qbytes) (hm : m.size ≤ largest)
    (hsmall : ∀ m ∈ queue, m.size ≤ largest) (hlength : queue.length + 1 ≤ clients.pids.card) :
    Room qbytes queue m := by
  have hbytes := bytes_le hsmall
  have hmul : (queue.length + 1) * largest ≤ clients.pids.card * largest :=
    Nat.mul_le_mul_right _ hlength
  rw [Nat.add_mul, Nat.one_mul] at hmul
  have hlargest : largest = 1029 := rfl
  refine ⟨by omega, ?_⟩
  rw [hlargest] at hfits
  omega

end Sizes

section Invariant

theorem owner_clientSend (pid : ℕ) (message : CString) : owner (clientSend pid message 0) = pid :=
  if_pos rfl

theorem owner_of_ne (h : m.message.dst ≠ serviceType) : owner m = m.message.dst := if_neg h

theorem mem_middle {x : Sending} (hx : x ∈ before ++ after) : x ∈ before ++ m :: after := by
  rw [List.mem_append, List.mem_cons]
  exact (List.mem_append.mp hx).imp_right .inr

theorem State.Inv.start : State.start.Inv clients where
  nodup := List.nodup_nil
  waits _ h := by cases h
  owned _ h := absurd h List.not_mem_nil
  active _ := .inl rfl
  small _ h := absurd h List.not_mem_nil
  pending _ h := by cases h

/-- The messages change hands. -/
theorem State.Inv.of_perm (h : s.Inv clients) (hprocess : t.process = s.process)
    (howners : t.owners.Perm s.owners) (hsmall : ∀ m ∈ t.queue, m.size ≤ largest)
    (hpending : ∀ r, t.service = .replying r → r.size ≤ largest) : t.Inv clients where
  nodup := howners.nodup_iff.mpr h.nodup
  waits pid hpid := howners.mem_iff.mpr (h.waits pid (hprocess ▸ hpid))
  owned pid hpid := hprocess ▸ h.owned pid (howners.mem_iff.mp hpid)
  active pid := hprocess ▸ h.active pid
  small := hsmall
  pending := hpending

/-- One process does something else, and the others keep their messages. -/
theorem State.Inv.of_others (h : s.Inv clients) (hpid : pid ∈ clients.pids)
    (hprocess : t.process = Function.update s.process pid process)
    (hothers : ∀ p ≠ pid, p ∈ t.owners ↔ p ∈ s.owners) (hnodup : t.owners.Nodup)
    (hwaits : process = .waiting → pid ∈ t.owners)
    (howned : pid ∈ t.owners → process = .waiting ∨ process = .gone)
    (hsmall : ∀ m ∈ t.queue, m.size ≤ largest)
    (hpending : ∀ r, t.service = .replying r → r.size ≤ largest) : t.Inv clients where
  nodup := hnodup
  waits p hp := by
    rw [hprocess] at hp
    by_cases hpp : p = pid
    · subst hpp
      rw [Function.update_self] at hp
      exact hwaits hp
    · rw [Function.update_of_ne hpp] at hp
      exact (hothers p hpp).mpr (h.waits p hp)
  owned p hp := by
    rw [hprocess]
    by_cases hpp : p = pid
    · subst hpp
      rw [Function.update_self]
      exact ⟨hpid, howned hp⟩
    · rw [Function.update_of_ne hpp]
      exact h.owned p ((hothers p hpp).mp hp)
  active p := by
    by_cases hpp : p = pid
    · exact .inr (hpp ▸ hpid)
    · rw [hprocess, Function.update_of_ne hpp]
      exact h.active p
  small := hsmall
  pending := hpending

/-- A process without a message does something else than wait. -/
theorem State.Inv.setProcess (h : s.Inv clients) (hpid : pid ∈ clients.pids)
    (hfree : pid ∈ s.owners → process = .gone) (hwaiting : process ≠ .waiting) :
    ({ s with process := Function.update s.process pid process } : State).Inv clients :=
  h.of_others hpid rfl (fun _ _ => .rfl) h.nodup (fun hp => absurd hp hwaiting)
    (fun hmem => .inr (hfree hmem)) h.small h.pending

theorem State.Inv.notMem (h : s.Inv clients) (hwaiting : s.process pid ≠ .waiting)
    (hgone : s.process pid ≠ .gone) : pid ∉ s.owners := by
  intro hmem
  rcases (h.owned pid hmem).2 with hp | hp
  · exact hwaiting hp
  · exact hgone hp

/-- A process in `msgsnd` has no message yet. -/
theorem State.Inv.free (h : s.Inv clients) (hpid : s.process pid = .sending message) :
    pid ∉ s.owners := h.notMem (by rw [hpid]; nofun) (by rw [hpid]; nofun)

theorem State.Inv.client (h : s.Inv clients) (hpid : s.process pid = .sending message) :
    pid ∈ clients.pids := by
  rcases h.active pid with hp | hp
  · rw [hpid] at hp
    cases hp
  · exact hp

theorem State.Inv.send (h : s.Inv clients) (hpid : s.process pid = .sending message) :
    ({ s with
        queue := s.queue ++ [clientSend pid message 0]
        process := Function.update s.process pid .waiting } : State).Inv clients := by
  have hfree := h.free hpid
  have hclient := h.client hpid
  have howners : ({ s with
      queue := s.queue ++ [clientSend pid message 0]
      process := Function.update s.process pid .waiting } : State).owners.Perm
        (pid :: s.owners) := by
    simp only [State.owners, List.map_append, List.map_singleton, owner_clientSend,
      List.append_assoc, List.singleton_append]
    exact List.perm_middle
  refine h.of_others hclient rfl (fun p hpp => ?_)
    (howners.nodup_iff.mpr (List.nodup_cons.mpr ⟨hfree, h.nodup⟩))
    (fun _ => howners.mem_iff.mpr List.mem_cons_self) (fun _ => .inl rfl) (fun m hm => ?_) h.pending
  · rw [howners.mem_iff]
    exact ⟨List.mem_of_ne_of_mem hpp, List.mem_cons_of_mem _⟩
  · rcases List.mem_append.mp hm with hm | hm
    · exact h.small m hm
    · rw [List.mem_singleton.mp hm]
      exact sending_size_le _ _

theorem Step.inv (h : s.Inv clients) (hs : Step clients qbytes s e t) : t.Inv clients := by
  cases hs with
  | ask message hpid hidle =>
    have hfree := h.notMem (by rw [hidle]; nofun) (by rw [hidle]; nofun)
    exact h.setProcess hpid (fun hmem => absurd hmem hfree) nofun
  | exit hpid => exact h.setProcess hpid (fun _ => rfl) nofun
  | send hpid _ => exact h.send hpid
  | @answer pid before after m hpid hqueue hdst _ =>
    have hclient : pid ∈ clients.pids := (h.owned pid (h.waits pid hpid)).1
    have howner : owner m = pid := by
      rw [owner_of_ne (by rw [hdst]; exact (clients.one_lt pid hclient).ne'), hdst]
    have howners : s.owners.Perm (pid :: ({ s with queue := before ++ after } : State).owners) := by
      simp only [State.owners, hqueue, List.map_append, List.map_cons, howner, List.append_assoc,
        List.cons_append]
      exact List.perm_middle
    have hnodup := List.nodup_cons.mp (howners.nodup_iff.mp h.nodup)
    refine h.of_others hclient rfl (fun p hpp => ?_) hnodup.2 nofun
      (fun hmem => absurd hmem hnodup.1) (fun m hm => h.small m (hqueue ▸ mem_middle hm)) h.pending
    rw [howners.mem_iff]
    exact ⟨List.mem_cons_of_mem _, List.mem_of_ne_of_mem hpp⟩
  | @receive before after m hservice hqueue hdst _ =>
    have howner : owner m = m.message.src := if_pos hdst
    refine h.of_perm rfl ?_ (fun m hm => h.small m (hqueue ▸ mem_middle hm)) nofun
    simp only [State.owners, hservice, hqueue, Service.owners, List.map_append, List.map_cons,
      howner, List.append_nil]
    exact (List.perm_append_singleton _ _).trans List.perm_middle.symm
  | @evaluate request error result hservice =>
    refine h.of_perm rfl ?_ h.small fun r hr => ?_
    · simp only [State.owners, hservice, Service.owners]
      rfl
    · rw [← Service.replying.inj hr]
      exact sending_size_le _ _
  | @drop request hservice hgone =>
    have howners : s.owners = s.queue.map owner ++ [request.src] := by
      rw [State.owners, hservice, Service.owners]
    have hsub : ∀ p, p ∈ ({ s with service := .receiving } : State).owners → p ∈ s.owners := by
      intro p hp
      rw [howners]
      exact List.mem_append_left _ (by simpa [State.owners, Service.owners] using hp)
    refine ⟨?_, fun p hp => ?_, fun p hp => h.owned p (hsub p hp), h.active, h.small, nofun⟩
    · have hnodup := h.nodup
      rw [howners] at hnodup
      simpa [State.owners, Service.owners] using hnodup.of_append_left
    · have hmem := h.waits p hp
      rw [howners] at hmem
      rcases List.mem_append.mp hmem with hmem | hmem
      · simpa [State.owners, Service.owners] using hmem
      · dsimp only at hp
        rw [List.mem_singleton.mp hmem, hgone] at hp
        cases hp
  | @reply r hservice _ =>
    have hclient : r.message.dst ∈ clients.pids := (h.owned _ (by
      rw [State.owners, hservice]
      exact List.mem_append_right _ (List.mem_singleton_self _))).1
    have howner : owner r = r.message.dst := owner_of_ne (clients.one_lt _ hclient).ne'
    refine h.of_perm rfl ?_ (fun m hm => ?_) nofun
    · simp [State.owners, hservice, Service.owners, howner]
    · rcases List.mem_append.mp hm with hm | hm
      · exact h.small m hm
      · rw [List.mem_singleton.mp hm]
        exact h.pending r hservice

end Invariant

section Progress

def Process.isSending : Process → Bool
  | .sending _ => true
  | .idle | .waiting | .gone => false

/-- The processes that are in `msgsnd`. -/
def senders (clients : Clients) (process : ℕ → Process) : Finset ℕ :=
  clients.pids.filter fun pid => (process pid).isSending

/-- The steps that are left for a message, up to its answer. -/
def weight (m : Sending) : ℕ := if m.message.dst = serviceType then 4 else 1

def Service.weight : Service → ℕ
  | .receiving => 0
  | .evaluating _ => 3
  | .replying _ => 2

def State.work (clients : Clients) (s : State) : ℕ :=
  5 * (senders clients s.process).card + (s.queue.map weight).sum + s.service.weight

theorem senders_send (hclient : pid ∈ clients.pids) (hpid : s.process pid = .sending message) :
    (senders clients (Function.update s.process pid .waiting)).card <
      (senders clients s.process).card := by
  have herase : senders clients (Function.update s.process pid .waiting) =
      (senders clients s.process).erase pid := by
    ext p
    simp only [senders, Finset.mem_filter, Finset.mem_erase]
    by_cases hpp : p = pid
    · subst hpp
      simp [Process.isSending]
    · simp [hpp]
  rw [herase]
  refine Finset.card_erase_lt_of_mem (Finset.mem_filter.mpr ⟨hclient, ?_⟩)
  rw [hpid]
  rfl

theorem senders_idle (hpid : s.process pid = .waiting) :
    senders clients (Function.update s.process pid .idle) = senders clients s.process := by
  refine Finset.filter_congr fun p _ => ?_
  by_cases hpp : p = pid
  · subst hpp
    rw [Function.update_self, hpid]
    rfl
  · rw [Function.update_of_ne hpp]

theorem length_le_card {pids : List ℕ} (hnodup : pids.Nodup)
    (hpids : ∀ pid ∈ pids, pid ∈ clients.pids) : pids.length ≤ clients.pids.card := by
  rw [← List.toFinset_card_of_nodup hnodup]
  exact Finset.card_le_card fun pid hpid => hpids pid (List.mem_toFinset.mp hpid)

/-- The first message of a type. -/
theorem exists_first {dst : ℕ} (h : ∃ m ∈ queue, m.message.dst = dst) :
    ∃ before m after, queue = before ++ m :: after ∧ m.message.dst = dst ∧
      ∀ x ∈ before, x.message.dst ≠ dst := by
  have hsome : (queue.find? fun m => m.message.dst = dst).isSome := by
    simpa [List.find?_isSome] using h
  obtain ⟨m, hm⟩ := Option.isSome_iff_exists.mp hsome
  obtain ⟨hdst, before, after, hqueue, hbefore⟩ := List.find?_eq_some_iff_append.mp hm
  exact ⟨before, m, after, hqueue, by simpa using hdst, fun x hx => by simpa using hbefore x hx⟩

/-- As long as somebody waits the next step is free. -/
theorem exists_serving (hfits : clients.pids.card * largest ≤ qbytes) (h : s.Inv clients)
    (hrest : ¬ s.Rest) : ∃ e t, e.Serves ∧ Step clients qbytes s e t ∧
      t.work clients < s.work clients := by
  have hlength := length_le_card h.nodup fun pid hpid => (h.owned pid hpid).1
  cases hservice : s.service with
  | evaluating request =>
    refine ⟨.evaluate, _, trivial, .evaluate 0 ⟨[], List.not_mem_nil⟩ hservice, ?_⟩
    simp [State.work, hservice, Service.weight]
  | replying r =>
    rw [State.owners, hservice, List.length_append, List.length_map] at hlength
    have hroom := room_of_length hfits (h.pending r hservice) h.small hlength
    have hclient : r.message.dst ∈ clients.pids := (h.owned _ (by
      rw [State.owners, hservice]
      exact List.mem_append_right _ (List.mem_singleton_self _))).1
    refine ⟨.reply, _, trivial, .reply hservice hroom, ?_⟩
    simp [State.work, hservice, Service.weight, weight, (clients.one_lt _ hclient).ne']
    omega
  | receiving =>
    rw [State.owners, hservice, Service.owners, List.append_nil, List.length_map] at hlength
    by_cases hrequest : ∃ m ∈ s.queue, m.message.dst = serviceType
    · obtain ⟨before, m, after, hqueue, hdst, hbefore⟩ := exists_first hrequest
      refine ⟨.receive, _, trivial, .receive hservice hqueue hdst hbefore, ?_⟩
      simp only [State.work, hservice, hqueue, Service.weight, List.map_append, List.map_cons,
        List.sum_append, List.sum_cons, weight, if_pos hdst]
      omega
    · obtain ⟨pid, hpid⟩ := not_forall.mp fun hall => hrest ⟨hservice, hall⟩
      cases hp : s.process pid with
      | idle => exact absurd (.inl hp) hpid
      | gone => exact absurd (.inr hp) hpid
      | sending message =>
        have hlast : s.queue.length + 1 ≤ clients.pids.card := by
          have hnodup := List.nodup_cons.mpr ⟨h.free hp, h.nodup⟩
          have hle := length_le_card hnodup (List.forall_mem_cons.mpr
            ⟨h.client hp, fun pid hpid => (h.owned pid hpid).1⟩)
          simpa [State.owners, hservice, Service.owners] using hle
        have hroom : Room qbytes s.queue (clientSend pid message 0) :=
          room_of_length hfits (sending_size_le _ message) h.small hlast
        refine ⟨.send pid, _, trivial, .send hp hroom, ?_⟩
        have hlt := senders_send (h.client hp) hp
        simp [State.work, weight, clientSend, sending, clientMessage, hservice, Service.weight]
        omega
      | waiting =>
        have hmem := h.waits pid hp
        rw [State.owners, hservice, Service.owners, List.append_nil] at hmem
        obtain ⟨m, hm, howner⟩ := List.mem_map.mp hmem
        have hne : m.message.dst ≠ serviceType := fun hdst => hrequest ⟨m, hm, hdst⟩
        rw [owner_of_ne hne] at howner
        obtain ⟨before, m, after, hqueue, hdst, hbefore⟩ := exists_first ⟨m, hm, howner⟩
        refine ⟨.answer pid, _, trivial, .answer hp hqueue hdst hbefore, ?_⟩
        simp only [State.work, senders_idle hp, hqueue, List.map_append, List.map_cons,
          List.sum_append, List.sum_cons, weight]
        split_ifs <;> omega

end Progress

section Block

theorem sending_size_bodyful (m : Message) (hlength : strlen message = 1012) :
    (sending m message).size = largest := by
  have htruncated : (sending m message).truncated = false := by
    rw [sending_truncated, hlength]
    rfl
  rw [sending_size_of_not_truncated htruncated, hlength]
  rfl

theorem strlen_response (hlength : strlen message = 1012) : strlen (response message) = 1012 := by
  have hchars : message.chars.length = 1012 := hlength
  change (message.chars.take 1023).length = 1012
  rw [List.length_take, hchars]
  rfl

theorem strlen_bodyful : strlen bodyful = 1012 := List.length_replicate

/-- The service is in `send` with a reply that does not fit, and nobody will make room: there are
only requests in the queue. -/
structure State.Wedged (qbytes : ℕ) (s : State) : Prop where
  reply : ∃ r, s.service = .replying r ∧ qbytes < r.size + bytes s.queue
  requests : ∀ m ∈ s.queue, m.message.dst = serviceType
  others : s.process serviceType = .idle

theorem State.Wedged.step (h : s.Wedged qbytes) (he : e.Serves)
    (hs : Step clients qbytes s e t) : t.Wedged qbytes := by
  obtain ⟨⟨r, hservice, hfull⟩, hrequests, hothers⟩ := h
  cases hs with
  | ask | exit => exact he.elim
  | @send pid message hpid _ =>
    refine ⟨⟨r, hservice, ?_⟩, fun m hm => ?_, ?_⟩
    · rw [bytes_append]
      omega
    · rcases List.mem_append.mp hm with hm | hm
      · exact hrequests m hm
      · rw [List.mem_singleton.mp hm]
        rfl
    · dsimp only
      rw [Function.update_of_ne]
      · exact hothers
      · rintro rfl
        rw [hothers] at hpid
        cases hpid
  | @answer pid before after m hpid hqueue hdst _ =>
    have hservice := hrequests m (by simp [hqueue])
    rw [hdst] at hservice
    rw [hservice, hothers] at hpid
    cases hpid
  | receive hreceiving =>
    rw [hservice] at hreceiving
    cases hreceiving
  | evaluate _ _ hevaluating =>
    rw [hservice] at hevaluating
    cases hevaluating
  | drop hevaluating =>
    rw [hservice] at hevaluating
    cases hevaluating
  | reply hreplying hroom =>
    rw [hservice, Service.replying.injEq] at hreplying
    subst hreplying
    exact absurd hroom.1 (Nat.not_le.mpr hfull)

theorem State.Wedged.not_drains (h : s.Wedged qbytes) :
    ¬ Drains (Step clients qbytes) Event.Serves State.Rest s := by
  refine Library.not_drains (fun _ _ _ hs he hstep => hs.step he hstep) (fun s hs hrest => ?_) h
  obtain ⟨r, hservice, -⟩ := hs.reply
  rw [hrest.1] at hservice
  cases hservice

/-- A request that is larger than the queue stays in `msgsnd`. -/
theorem not_drains_of_small (hsmall : qbytes < largest) (hpid : s.process pid = .sending bodyful) :
    ¬ Drains (Step clients qbytes) Event.Serves State.Rest s := by
  have hstep : ∀ s e t, s.process pid = .sending bodyful → Event.Serves e →
      Step clients qbytes s e t → t.process pid = .sending bodyful := by
    intro s e t hpid he hs
    cases hs with
    | ask | exit => exact he.elim
    | @send p message hp hroom =>
      by_cases hpp : pid = p
      · rw [← hpp, hpid, Process.sending.injEq] at hp
        have hle := hroom.1
        rw [← hp, clientSend, sending_size_bodyful _ strlen_bodyful] at hle
        omega
      · exact (Function.update_of_ne hpp ..).trans hpid
    | @answer p _ _ _ hp =>
      by_cases hpp : pid = p
      · rw [← hpp, hpid] at hp
        cases hp
      · exact (Function.update_of_ne hpp ..).trans hpid
    | receive | evaluate | drop | reply => exact hpid
  refine Library.not_drains hstep (fun s hpid hrest => ?_) hpid
  rcases hrest.2 pid with hp | hp
  · rw [hpid] at hp
    cases hp
  · rw [hpid] at hp
    cases hp

/-- Some processes ask in turn, each with a request of the largest size. -/
theorem reachable_requests {pids : List ℕ} (hnodup : pids.Nodup)
    (hclients : ∀ pid ∈ pids, pid ∈ clients.pids)
    (hs : Reachable (Step clients qbytes) .start s) (hidle : ∀ pid ∈ pids, s.process pid = .idle)
    (hqueue : ∀ m ∈ s.queue, m.size = largest ∧ m.message.dst = serviceType)
    (hroom : (s.queue.length + pids.length) * largest ≤ qbytes) :
    ∃ t, Reachable (Step clients qbytes) .start t ∧ t.service = s.service ∧
      (∀ pid ∉ pids, t.process pid = s.process pid) ∧
      t.queue.length = s.queue.length + pids.length ∧
      ∀ m ∈ t.queue, m.size = largest ∧ m.message.dst = serviceType := by
  induction pids generalizing s with
  | nil => exact ⟨s, hs, rfl, fun _ _ => rfl, rfl, hqueue⟩
  | cons pid pids ih =>
    obtain ⟨hpid, hnodup⟩ := List.nodup_cons.mp hnodup
    obtain ⟨hclient, hclients⟩ := List.forall_mem_cons.mp hclients
    obtain ⟨hfirst, hidle⟩ := List.forall_mem_cons.mp hidle
    rw [List.length_cons] at hroom
    have hsize : (clientSend pid bodyful 0).size = largest := sending_size_bodyful _ strlen_bodyful
    have hbytes := bytes_le fun m hm => (hqueue m hm).1.le
    have hle : (s.queue.length + 1) * largest ≤ qbytes :=
      (Nat.mul_le_mul_right _ (by omega)).trans hroom
    have hfits : Room qbytes s.queue (clientSend pid bodyful 0) := by
      rw [Nat.add_mul, Nat.one_mul] at hle
      have hlargest : largest = 1029 := rfl
      refine ⟨by omega, ?_⟩
      rw [hlargest] at hle
      omega
    have hask := hs.next (.ask bodyful hclient hfirst)
    have hsend := hask.next (.send (Function.update_self ..) hfits)
    dsimp only at hsend
    rw [Function.update_idem] at hsend
    have hothers : ∀ p ∈ pids, Function.update s.process pid .waiting p = .idle := fun p hp =>
      (Function.update_of_ne (ne_of_mem_of_not_mem hp hpid) ..).trans (hidle p hp)
    have hall : ∀ m ∈ s.queue ++ [clientSend pid bodyful 0],
        m.size = largest ∧ m.message.dst = serviceType := by
      intro m hm
      rcases List.mem_append.mp hm with hm | hm
      · exact hqueue m hm
      · rw [List.mem_singleton.mp hm]
        exact ⟨hsize, rfl⟩
    have hlength : (s.queue ++ [clientSend pid bodyful 0]).length + pids.length =
        s.queue.length + (pids.length + 1) := by
      rw [List.length_append, List.length_singleton]
      omega
    obtain ⟨t, ht, hservice, hprocess, ht', hall⟩ := ih hnodup hclients hsend hothers hall
      (by rw [hlength]; exact hroom)
    refine ⟨t, ht, hservice, fun p hp => ?_, ht'.trans hlength, hall⟩
    rw [List.mem_cons, not_or] at hp
    exact (hprocess p hp.2).trans (Function.update_of_ne hp.1 ..)

/-- The service comes to reply to a process, with a result of the largest size. -/
theorem reachable_replying (hclient : pid ∈ clients.pids) (hlargest : largest ≤ qbytes) :
    ∃ s r, Reachable (Step clients qbytes) .start s ∧ s.service = .replying r ∧
      r.size = largest ∧ s.queue = [] ∧ ∀ p ≠ pid, s.process p = .idle := by
  have hroom : Room qbytes [] (clientSend pid bodyful 0) := by
    have hsize : (clientSend pid bodyful 0).size = largest := sending_size_bodyful _ strlen_bodyful
    refine ⟨?_, (show 1 ≤ largest by decide).trans hlargest⟩
    rw [hsize]
    exact hlargest
  have hs : Reachable (Step clients qbytes) .start _ :=
    Reachable.next ⟨[], .start⟩ (.ask bodyful hclient rfl)
  have hs := hs.next (.send (Function.update_self ..) hroom)
  have hs := hs.next (@Step.receive clients qbytes _ [] [] _ rfl rfl rfl nofun)
  have hs := hs.next (.evaluate 0 bodyful rfl)
  refine ⟨_, _, hs, rfl, sending_size_bodyful _ (strlen_response strlen_bodyful), rfl,
    fun p hp => ?_⟩
  dsimp only
  rw [Function.update_idem, Function.update_of_ne hp]
  rfl

/-- One process is being replied to while as many others have asked as there is room for. -/
theorem exists_not_drains (hfull : qbytes < clients.pids.card * largest) :
    ∃ s, Reachable (Step clients qbytes) .start s ∧
      ¬ Drains (Step clients qbytes) Event.Serves State.Rest s := by
  have hlength : clients.pids.toList.length = clients.pids.card := Finset.length_toList _
  have hnodup : clients.pids.toList.Nodup := Finset.nodup_toList _
  have hmem : ∀ pid ∈ clients.pids.toList, pid ∈ clients.pids := fun _ => Finset.mem_toList.mp
  rw [← hlength] at hfull
  generalize clients.pids.toList = pids at hnodup hmem hfull
  cases pids with
  | nil => exact absurd hfull (by simp)
  | cons pid pids =>
    rw [List.length_cons] at hfull
    obtain ⟨hpid, hnodup⟩ := List.nodup_cons.mp hnodup
    obtain ⟨hclient, hclients⟩ := List.forall_mem_cons.mp hmem
    by_cases hsmall : qbytes < largest
    · exact ⟨_, Reachable.next ⟨[], .start⟩ (.ask bodyful hclient rfl),
        not_drains_of_small hsmall (Function.update_self ..)⟩
    · obtain ⟨s, r, hs, hservice, hsize, hqueue, hidle⟩ :=
        reachable_replying hclient (Nat.le_of_not_lt hsmall)
      -- as many of the others as there is room for
      have hcount : (pids.take (qbytes / largest)).length = qbytes / largest :=
        List.length_take_of_le
          (Nat.le_of_lt_succ (Nat.div_lt_of_lt_mul (by rwa [Nat.mul_comm])))
      have hothers : ∀ p ∈ pids.take (qbytes / largest), s.process p = .idle := fun p hp =>
        hidle p (ne_of_mem_of_not_mem (List.mem_of_mem_take hp) hpid)
      have hroom : (s.queue.length + (pids.take (qbytes / largest)).length) * largest ≤ qbytes := by
        rw [hqueue, List.length_nil, Nat.zero_add, hcount]
        exact Nat.div_mul_le_self _ _
      obtain ⟨t, ht, hservice', hprocess, htlength, hall⟩ :=
        reachable_requests (hnodup.sublist (List.take_sublist _ _))
          (fun p hp => hclients p (List.mem_of_mem_take hp)) hs hothers
          (by rw [hqueue]; exact nofun) hroom
      have hbytes : bytes t.queue = qbytes / largest * largest := by
        rw [bytes_eq fun m hm => (hall m hm).1, htlength, hqueue, hcount, List.length_nil,
          Nat.zero_add]
      have hover : qbytes < r.size + bytes t.queue := by
        rw [hsize, hbytes]
        have hlt := Nat.lt_div_mul_add (a := qbytes) (b := largest) (by decide)
        omega
      have hinit : t.process serviceType = .idle := by
        have hne : ∀ p ∈ clients.pids, serviceType ≠ p := fun p hp => (clients.one_lt p hp).ne
        rw [hprocess _ fun hp => hne _ (hclients _ (List.mem_of_mem_take hp)) rfl]
        exact hidle _ (hne pid hclient)
      exact ⟨t, ht, State.Wedged.not_drains
        ⟨⟨r, hservice'.trans hservice, hover⟩, fun m hm => (hall m hm).2, hinit⟩⟩

end Block

/-- However the clients ask and exit, all who wait can be served, if and only if the queue has room
for a message of the largest size from every process that ever uses it. -/
theorem live_iff (clients : Clients) (qbytes : ℕ) :
    Live clients qbytes ↔ clients.pids.card * largest ≤ qbytes := by
  constructor
  · intro hlive
    by_contra hnot
    obtain ⟨s, hs, hdrains⟩ := exists_not_drains (Nat.lt_of_not_le hnot)
    exact hdrains (hlive s hs)
  · intro hfits s hs
    have hinv : s.Inv clients := hs.invariant .start fun _ _ _ h hstep => hstep.inv h
    exact drains_of_measure (State.work clients) (fun _ _ _ h hstep => hstep.inv h)
      (fun _ h hrest => exists_serving hfits h hrest) hinv

end Redx.Channel.Capacity
