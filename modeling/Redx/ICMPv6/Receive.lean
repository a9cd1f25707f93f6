import Redx.ICMPv6.Pdu

/-!
# What an ICMPv6 socket delivers

`Socket::receive` keeps one buffer for all datagrams and hands its address to the factories, not
the length of what was received. A message object can so lack what the datagram had, and hold
what an earlier one left behind.
-/
namespace Redx.ICMPv6
open Library

/-- `sizeof buffer` -/
def bufferSize : ℕ := 2048

/-- What `recvfrom` gives: an error, or a datagram. -/
inductive Received where
  | error
  | datagram (bytes : List UInt8)

/-- The buffer after `recvfrom`; what does not fit is dropped. -/
def recvfrom (buffer : ℕ → UInt8) (bytes : List UInt8) : ℕ → UInt8 :=
  store buffer 0 (bytes.take bufferSize)

/-- `Socket::receive`: the objects delivered, in order. It returns after an error. -/
def receive (buffer : ℕ → UInt8) : List Received → List Pdu
  | [] => []
  | .error :: _ => []
  | .datagram bytes :: inputs =>
    let buffer := recvfrom buffer bytes
    if bytes = [] then receive buffer inputs
    else
      match factories (buffer 0) with
      | none => receive buffer inputs
      | some factory => factory buffer :: receive buffer inputs

/-- The object delivered for a datagram that comes after others. -/
def deliveredFor (buffer : ℕ → UInt8) (earlier : List (List UInt8)) (datagram : List UInt8) :
    Option Pdu :=
  (receive buffer ((earlier ++ [datagram]).map .datagram)).getLast?

/-- The object has the fields of the datagram, and sends its bytes. -/
structure Preserves (p : Pdu) (datagram : List UInt8) : Prop where
  type : p.type = datagram[0]?
  code : p.code = datagram[1]?
  rest : p.rest = (datagram.take sizeofHeader).drop 2
  target : ∀ target, p.target = some target → target = (datagram.drop sizeofHeader).take 16
  send : p.send = datagram.take (size (datagram.headD 0))

/-- Nothing stands in the header behind the type. -/
def Blank (datagram : List UInt8) : Prop :=
  (datagram.take sizeofHeader).tail = List.replicate (sizeofHeader - 1) 0

instance (datagram : List UInt8) : Decidable (Blank datagram) :=
  inferInstanceAs (Decidable (_ = _))

variable {buffer buffer' : ℕ → UInt8} {datagram : List UInt8} {inputs : List Received} {p : Pdu}
  {i : ℕ}

theorem recvfrom_apply (hi : i < datagram.length) (hsize : i < bufferSize) :
    recvfrom buffer datagram i = datagram[i] := by
  have hlt : i < (datagram.take bufferSize).length := by
    rw [List.length_take]
    omega
  have hstore : store buffer 0 (datagram.take bufferSize) (0 + i) = (datagram.take bufferSize)[i] :=
    store_inside hlt
  rwa [Nat.zero_add, List.getElem_take] at hstore

/-- Behind what was received the buffer is as before. -/
theorem recvfrom_behind (hi : datagram.length ≤ i) : recvfrom buffer datagram i = buffer i := by
  refine store_outside (.inr ?_)
  rw [List.length_take]
  omega

/-- A prefix of the buffer that was received whole. -/
theorem load_recvfrom {n : ℕ} (hn : n ≤ datagram.length) (hsize : n ≤ bufferSize) :
    load (recvfrom buffer datagram) 0 n = datagram.take n := by
  rw [recvfrom, load_store (by rw [List.length_take]; omega), List.take_take,
    Nat.min_eq_left hsize]

theorem recvfrom_zero (hne : datagram ≠ []) : recvfrom buffer datagram 0 = datagram.headD 0 := by
  obtain ⟨b, bytes, rfl⟩ := List.exists_cons_of_ne_nil hne
  exact recvfrom_apply (Nat.succ_pos _) (by decide)

theorem receive_cons (hne : datagram ≠ []) : receive buffer (.datagram datagram :: inputs) =
    selected (datagram.headD 0) (recvfrom buffer datagram) ::
      receive (recvfrom buffer datagram) inputs := by
  rw [receive, if_neg hne, recvfrom_zero hne, factories_eq]

/-- What a run delivers last is delivered in the run without its first datagram too. -/
theorem receive_getLast? {d : List UInt8} (hne : receive (recvfrom buffer d) inputs ≠ []) :
    (receive buffer (.datagram d :: inputs)).getLast? =
      (receive (recvfrom buffer d) inputs).getLast? := by
  by_cases hd : d = []
  · rw [receive, if_pos hd]
  · rw [receive_cons hd, List.getLast?_cons_of_ne_nil hne]

/-- For a datagram the loop makes an object of it and of what the earlier ones left behind. -/
theorem deliveredFor_eq (buffer : ℕ → UInt8) (earlier : List (List UInt8)) (hne : datagram ≠ []) :
    deliveredFor buffer earlier datagram =
      some (selected (datagram.headD 0) (recvfrom (earlier.foldl recvfrom buffer) datagram)) := by
  induction earlier generalizing buffer with
  | nil => exact congrArg List.getLast? (receive_cons hne)
  | cons d earlier ih =>
    have hrest := ih (recvfrom buffer d)
    rw [deliveredFor] at hrest ⊢
    rw [List.cons_append, List.map_cons, receive_getLast?, hrest, List.foldl_cons]
    intro hnil
    rw [hnil] at hrest
    cases hrest

theorem size_le_bufferSize (type : UInt8) : size type ≤ bufferSize := by
  unfold size
  split_ifs <;> decide

theorem Pdu.sizeofSolicit_le_message {target : List UInt8} (h : p.target = some target) :
    target = (p.message.drop sizeofHeader).take 16 ∧ sizeofSolicit ≤ p.message.length := by
  cases p with
  | neighborSolicitation _ own => exact ⟨(Option.some.inj h).symm, own.toList_length.ge⟩
  | neighborAdvertisement _ own =>
    refine ⟨(Option.some.inj h).symm, ?_⟩
    rw [Pdu.message, own.toList_length]
    decide
  | _ => cases h

/-- The fields are those of the datagram when the bytes sent are. -/
theorem preserves_iff (hsize : size (datagram.headD 0) ≤ datagram.length) :
    Preserves p datagram ↔ p.message = datagram.take (size (datagram.headD 0)) := by
  have hheader := sizeofHeader_le_size (datagram.headD 0)
  have hpos : 1 < size (datagram.headD 0) := Nat.lt_of_lt_of_le (by decide) hheader
  refine ⟨fun h => h.send, fun h => ⟨?_, ?_, ?_, fun target htarget => ?_, h⟩⟩
  · rw [Pdu.type, h, List.getElem?_take_of_lt (Nat.zero_lt_of_lt hpos)]
  · rw [Pdu.code, h, List.getElem?_take_of_lt hpos]
  · rw [Pdu.rest, h, List.take_take, Nat.min_eq_left hheader]
  · obtain ⟨rfl, hle⟩ := Pdu.sizeofSolicit_le_message htarget
    rw [h, List.length_take, Nat.min_eq_left hsize] at hle
    rw [h, List.drop_take, List.take_take, Nat.min_eq_left]
    simp only [sizeofSolicit, sizeofHeader] at *
    omega

/-- A datagram of the full size comes out as it went in if and only if it is one of the two
messages for neighbours or its header is zero behind the type. -/
theorem deliveredFor_preserves_iff (buffer : ℕ → UInt8) (earlier : List (List UInt8))
    (hsize : size (datagram.headD 0) ≤ datagram.length) :
    (∃ p, deliveredFor buffer earlier datagram = some p ∧ Preserves p datagram) ↔
      IsNeighbor (datagram.headD 0) ∨ Blank datagram := by
  have hne : datagram ≠ [] := by
    rintro rfl
    exact absurd ((sizeofHeader_le_size _).trans hsize) (by decide)
  simp only [deliveredFor_eq buffer earlier hne, Option.some.injEq, exists_eq_left']
  rw [preserves_iff hsize, message_selected (recvfrom_zero hne)]
  by_cases hneighbor : IsNeighbor (datagram.headD 0)
  · rw [if_pos hneighbor, load_recvfrom hsize (size_le_bufferSize _)]
    exact iff_of_true rfl (.inl hneighbor)
  · have hother : size (datagram.headD 0) = sizeofHeader := by
      rw [size, if_neg fun h => hneighbor (.inl h), if_neg fun h => hneighbor (.inr h)]
    obtain ⟨b, bytes, rfl⟩ := List.exists_cons_of_ne_nil hne
    rw [if_neg hneighbor, hother, or_iff_right hneighbor]
    exact List.cons_eq_cons.trans ((and_iff_right rfl).trans eq_comm)

/-- An echo request with the identifier one, and nothing else in its header. -/
def echoRequest : List UInt8 := [128, 0, 0, 0, 0, 1, 0, 0]

theorem deliveredFor_preserves_iff_echo :
    (∃ p, deliveredFor (fun _ => 0) [] echoRequest = some p ∧ Preserves p echoRequest) ↔
      IsNeighbor (echoRequest.headD 0) ∨ Blank echoRequest :=
  deliveredFor_preserves_iff _ _ (by decide)

/-- The identifier of an echo request is lost. -/
theorem echo_not_preserved :
    ¬ ∃ p, deliveredFor (fun _ => 0) [] echoRequest = some p ∧ Preserves p echoRequest := by
  rintro ⟨p, hp, hpreserves⟩
  have hdelivered : deliveredFor (fun _ => 0) [] echoRequest =
      some (.echoRequest (typed icmp6EchoRequest 0)) := by decide
  obtain rfl := Option.some.inj (hdelivered.symm.trans hp)
  exact absurd hpreserves.rest (by decide)

/-- Two runs deliver the same for a datagram, whatever they received before and whatever the
buffer held at first, if and only if the datagram is no shorter than what its class copies. -/
theorem deliveredFor_agree_iff (hne : datagram ≠ []) :
    (∀ buffer buffer' earlier earlier',
      deliveredFor buffer earlier datagram = deliveredFor buffer' earlier' datagram) ↔
    (IsNeighbor (datagram.headD 0) → size (datagram.headD 0) ≤ datagram.length) := by
  constructor
  · intro hagree hneighbor
    by_contra hlt
    -- one run finds zeros behind the datagram, the other one ones
    have heq := hagree (fun _ => 0) (fun _ => 1) [] []
    rw [deliveredFor_eq _ _ hne, deliveredFor_eq _ _ hne, Option.some.injEq] at heq
    have hmessage := congrArg Pdu.message heq
    rw [message_selected (recvfrom_zero hne), message_selected (recvfrom_zero hne),
      if_pos hneighbor, if_pos hneighbor, load_eq_load] at hmessage
    have hbehind := hmessage datagram.length (by omega)
    simp [recvfrom_behind] at hbehind
  · intro hsize buffer buffer' earlier earlier'
    rw [deliveredFor_eq _ _ hne, deliveredFor_eq _ _ hne, Option.some.injEq]
    refine selected_congr (recvfrom_zero hne) (recvfrom_zero hne) fun hneighbor => ?_
    rw [load_recvfrom (hsize hneighbor) (size_le_bufferSize _),
      load_recvfrom (hsize hneighbor) (size_le_bufferSize _)]

/-- The first byte of a neighbour solicitation alone. -/
def cutSolicitation : List UInt8 := [135]

theorem deliveredFor_agree_iff_cut :
    (∀ buffer buffer' earlier earlier',
      deliveredFor buffer earlier cutSolicitation =
        deliveredFor buffer' earlier' cutSolicitation) ↔
    (IsNeighbor (cutSolicitation.headD 0) →
      size (cutSolicitation.headD 0) ≤ cutSolicitation.length) :=
  deliveredFor_agree_iff (List.cons_ne_nil _ _)

/-- A neighbour solicitation cut to one byte delivers the target address of the one before. -/
theorem target_leaks :
    ¬ ∀ buffer buffer' earlier earlier',
      deliveredFor buffer earlier cutSolicitation =
        deliveredFor buffer' earlier' cutSolicitation := by
  intro hagree
  have heq := hagree (fun _ => 0) (fun _ => 0) [List.replicate 24 7] [List.replicate 24 9]
  have htarget := congrArg (fun p => p.bind Pdu.target) heq
  exact absurd htarget (by decide)

end Redx.ICMPv6
