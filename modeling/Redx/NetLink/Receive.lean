import Redx.NetLink.Datagram
import Mathlib.Logic.Function.Basic
import Mathlib.Tactic.SplitIfs

/-!
# Dispatch of received messages

`RouteSocket::receive` looks each message's type up in a table of factories and lets the object
made there deliver itself. There are two tables of that name, one in each source file, and
`NetLink_Module` fills the one that `receive` does not read.
-/
namespace Redx.NetLink
open Library

def maxRtFactory : ℕ := 1024

/-- The most that `recvmsg` puts into the buffer of `receive`. -/
def bufferSize : ℕ := 16 * 1024

/-- The `receive` members of `RouteReceiveCallbackInterface`. -/
inductive Overload where
  | newLink
  | delLink
  | newRoute
  | delRoute
  | newAddress
  | delAddress
  | newNeighbor
  | delNeighbor
  | routeMessage
  | routeError
  deriving DecidableEq, Repr

/-- The factories of the message classes. -/
inductive Factory where
  | routeMessage
  | newLink
  | delLink
  | getLink
  | newAddress
  | delAddress
  | getAddress
  | newRoute
  | delRoute
  | getRoute
  | newNeighbor
  | delNeighbor
  | getNeighbor
  deriving DecidableEq, Repr

/-- Where the object's `deliver` goes; the Get classes have none of their own. -/
def Factory.overload : Factory → Overload
  | .newLink => .newLink
  | .delLink => .delLink
  | .newAddress => .newAddress
  | .delAddress => .delAddress
  | .newRoute => .newRoute
  | .delRoute => .delRoute
  | .newNeighbor => .newNeighbor
  | .delNeighbor => .delNeighbor
  | .routeMessage | .getLink | .getAddress | .getRoute | .getNeighbor => .routeMessage

abbrev Table := Fin maxRtFactory → Option Factory

/-- The two arrays `routeFactories`, each in the unnamed namespace of its file. -/
structure Tables where
  netLink : Table
  tclNetLink : Table

/-- What `NetLink_Module` stores in an element. -/
def registered (type : ℕ) : Factory :=
  match type with
  | 16 => .newLink
  | 17 => .delLink
  | 18 => .getLink
  | 20 => .newAddress
  | 21 => .delAddress
  | 22 => .getAddress
  | 24 => .newRoute
  | 25 => .delRoute
  | 26 => .getRoute
  | 28 => .newNeighbor
  | 29 => .delNeighbor
  | 30 => .getNeighbor
  | _ => .routeMessage

def registeredTable : Table := fun type => some (registered type)

/-- The modules that `app_init` collects. Only `NetLink_Module` names a table. -/
inductive Module where
  | netLink
  | other
  deriving DecidableEq, Repr

def Module.run : Module → Tables → Tables
  | .netLink, t => { t with tclNetLink := registeredTable }
  | .other, t => t

/-- The tables once the modules have run, in their order; statics start as NULL. -/
def appInit (modules : List Module) : Tables :=
  modules.foldl (fun t m => m.run t) ⟨fun _ => none, fun _ => none⟩

/-- What the loop over a datagram does: it finds a header in order, indexes the table, calls the
callback. -/
inductive Event where
  | header (h length : ℕ)
  | index (type : ℕ)
  | deliver (overload : Overload) (h : ℕ)
  deriving DecidableEq, Repr

/-- How `receive` ends: at `finish`, at the `return` for a NULL factory, or past the table. -/
inductive Exit where
  | finish
  | returned
  | outOfBounds
  deriving DecidableEq, Repr

/-- The loop over one datagram, a unit of fuel for each message. There is no exit when
`NLMSG_OK` ends the loop. -/
def walk (table : Table) (memory : ℕ → UInt8) :
    ℕ → ℕ → ℕ → Option (List Event × Option Exit)
  | 0, _, _ => none
  | fuel + 1, h, length =>
    if NlmsgOk memory h length then
      let type := nlmsgType memory h
      let found := Event.header h (nlmsgLen memory h)
      if type = nlmsgDone then some ([found], some .finish)
      else if type = nlmsgError then some ([found, .deliver .routeError h], some .finish)
      else if hType : type < maxRtFactory then
        match table ⟨type, hType⟩ with
        | none => some ([found, .index type], some .returned)
        | some factory =>
          match walk table memory fuel (h + align (nlmsgLen memory h))
              (nextLength memory h length) with
          | none => none
          | some (events, exit) =>
            some (found :: .index type :: .deliver factory.overload h :: events, exit)
      else some ([found, .index type], some .outOfBounds)
    else some ([], none)

/-- What `recvmsg` gives: an error, or a datagram in a buffer that holds other bytes after it. -/
inductive Received where
  | error
  | datagram (memory : ℕ → UInt8) (status : ℕ)

/-- `RouteSocket::receive`; without an exit it waits in `recvmsg`. -/
def receive (table : Table) (fuel : ℕ) : List Received → Option (List Event × Option Exit)
  | [] => some ([], none)
  | .error :: rest => receive table fuel rest
  | .datagram memory status :: rest =>
    if status = 0 then some ([], some .finish)
    else
      match walk table memory fuel 0 status with
      | none => none
      | some (events, some exit) => some (events, some exit)
      | some (events, none) =>
        match receive table fuel rest with
        | none => none
        | some (events', exit) => some (events ++ events', exit)

/-- The calls of the callback: the overload, and the header of the message that it got. -/
def callbacks (events : List Event) : List (Overload × ℕ) :=
  events.filterMap fun
    | .deliver overload h => some (overload, h)
    | _ => none

/-- The overload for messages of a type. -/
def overloadOf (type : ℕ) : Overload :=
  match type with
  | 16 => .newLink
  | 17 => .delLink
  | 20 => .newAddress
  | 21 => .delAddress
  | 24 => .newRoute
  | 25 => .delRoute
  | 28 => .newNeighbor
  | 29 => .delNeighbor
  | _ => .routeMessage

/-- The messages before the first that ends the datagram. -/
def preceding (ms : List Message) : List Message := ms.takeWhile fun m => !decide m.Terminates

/-- The calls that deliver the messages of a datagram from `h` on: each one before the end
through the overload of its type, and the error if it is an error that ends the datagram. -/
def delivered : ℕ → List Message → List (Overload × ℕ)
  | _, [] => []
  | h, m :: ms =>
    if m.type = nlmsgDone then []
    else if m.type = nlmsgError then [(.routeError, h)]
    else (overloadOf m.type, h) :: delivered (h + align m.length) ms

/-- The calls that the loop makes, given the table. -/
def served (table : Table) : ℕ → List Message → List (Overload × ℕ)
  | _, [] => []
  | h, m :: ms =>
    if m.type = nlmsgDone then []
    else if m.type = nlmsgError then [(.routeError, h)]
    else if hType : m.type < maxRtFactory then
      match table ⟨m.type, hType⟩ with
      | none => []
      | some factory => (factory.overload, h) :: served table (h + align m.length) ms
    else []

/-- The loop goes on after the message: it does not end the datagram and its type has a factory. -/
def Passes (table : Table) (m : Message) : Prop :=
  ¬ m.Terminates ∧ ∃ hType : m.type < maxRtFactory, table ⟨m.type, hType⟩ ≠ none

variable {table : Table} {memory : ℕ → UInt8} {h fuel : ℕ} {ms : List Message}
  {bytes : List UInt8} {padded : Bool}

/-- On a message in memory `NLMSG_OK` holds, and the header has its length and type. -/
theorem found_of_holds {m : Message} {rest : List UInt8} (hm : Holds memory h (m.bytes ++ rest))
    (htype : m.type < 2 ^ 16) (hlen : (m.bytes ++ rest).length < 2 ^ 32) :
    NlmsgOk memory h (m.bytes ++ rest).length ∧ nlmsgLen memory h = m.length ∧
      nlmsgType memory h = m.type := by
  simp only [List.length_append, Message.length_bytes] at hlen ⊢
  obtain ⟨hl, ht⟩ := header_of_holds (holds_append.mp hm).1 htype (by omega)
  refine ⟨⟨?_, ?_, ?_⟩, hl, ht⟩
  · rw [Message.length]
    omega
  · rw [hl, Message.length]
    omega
  · rw [hl]
    omega

/-- `NLMSG_NEXT` leads over the padding to what follows the message. -/
theorem next_of_holds {m : Message} {padding : List UInt8}
    (hpad : m.length + padding.length = align m.length)
    (hm : Holds memory h (m.bytes ++ padding ++ bytes)) (hl : nlmsgLen memory h = m.length)
    (hlen : (m.bytes ++ padding ++ bytes).length < 2 ^ 32) :
    nextLength memory h (m.bytes ++ padding ++ bytes).length = bytes.length ∧
      Holds memory (h + align m.length) bytes := by
  rw [holds_append, List.length_append, Message.length_bytes, hpad] at hm
  simp only [List.length_append, Message.length_bytes] at hlen ⊢
  rw [nextLength, hl, ← hpad]
  exact ⟨by omega, hpad ▸ hm.2⟩

/-- One turn of the loop, given what the later ones do if it goes on. -/
theorem walk_message {m : Message} {length : ℕ} (hok : NlmsgOk memory h length)
    (hl : nlmsgLen memory h = m.length) (ht : nlmsgType memory h = m.type)
    (hnext : Passes table m → ∃ events exit,
      walk table memory fuel (h + align m.length) (nextLength memory h length) =
        some (events, exit) ∧ callbacks events = served table (h + align m.length) ms) :
    ∃ events exit, walk table memory (fuel + 1) h length = some (events, exit) ∧
      callbacks events = served table h (m :: ms) := by
  rw [walk, if_pos hok, served]
  simp only [ht, hl]
  by_cases hdone : m.type = nlmsgDone
  · exact ⟨_, _, if_pos hdone, by rw [if_pos hdone]; rfl⟩
  · rw [if_neg hdone, if_neg hdone]
    by_cases herror : m.type = nlmsgError
    · exact ⟨_, _, if_pos herror, by rw [if_pos herror]; rfl⟩
    · rw [if_neg herror, if_neg herror]
      by_cases hType : m.type < maxRtFactory
      · rw [dif_pos hType, dif_pos hType]
        cases hf : table ⟨m.type, hType⟩ with
        | none => exact ⟨_, _, rfl, rfl⟩
        | some factory =>
          obtain ⟨events, exit, hwalk, hcalls⟩ :=
            hnext ⟨fun h => h.elim hdone herror, hType, by simp [hf]⟩
          rw [hwalk]
          exact ⟨_, _, rfl, congrArg ((factory.overload, h) :: ·) hcalls⟩
      · rw [dif_neg hType, dif_neg hType]
        exact ⟨_, _, rfl, rfl⟩

/-- The loop makes exactly these calls, when it stops before the end or the end is padded. -/
theorem walk_served (hd : Datagram padded ms bytes) (hm : Holds memory h bytes)
    (hlen : bytes.length < 2 ^ 32) (htype : ∀ m ∈ ms, m.type < 2 ^ 16)
    (hstop : padded = true ∨ ∃ m ∈ ms, ¬ Passes table m) (hfuel : ms.length < fuel) :
    ∃ events exit, walk table memory fuel h bytes.length = some (events, exit) ∧
      callbacks events = served table h ms := by
  obtain ⟨fuel, rfl⟩ := Nat.exists_eq_succ_of_ne_zero (by omega : fuel ≠ 0)
  induction hd generalizing h fuel with
  | nil =>
    refine ⟨[], none, ?_, rfl⟩
    rw [walk, if_neg]
    exact fun hok => absurd hok.1 (by decide)
  | @last m =>
    rw [← List.append_nil m.bytes] at hm hlen
    have hfound := found_of_holds hm (htype m List.mem_cons_self) hlen
    rw [List.append_nil] at hfound
    refine walk_message hfound.1 hfound.2.1 hfound.2.2 fun hpass => ?_
    rcases hstop with h | ⟨m', hm', hnot⟩
    · cases h
    · exact absurd (List.mem_singleton.mp hm' ▸ hpass) hnot
  | @cons padded m ms padding bytes hpad hd ih =>
    rw [List.append_assoc] at hm hlen
    obtain ⟨hok, hl, ht⟩ := found_of_holds hm (htype m List.mem_cons_self) hlen
    rw [← List.append_assoc] at hm hlen hok
    obtain ⟨hnext, hrest⟩ := next_of_holds hpad hm hl hlen
    refine walk_message hok hl ht fun hpass => ?_
    rw [hnext]
    simp only [List.length_cons] at hfuel
    obtain ⟨fuel, rfl⟩ := Nat.exists_eq_succ_of_ne_zero (by omega : fuel ≠ 0)
    refine ih hrest (by simp only [List.length_append] at hlen; omega)
      (fun m' hm' => htype m' (List.mem_cons_of_mem _ hm')) ?_ fuel (by omega)
    refine hstop.imp_right ?_
    rintro ⟨m', hm', hnot⟩
    rcases List.mem_cons.mp hm' with rfl | hm'
    · exact absurd hpass hnot
    · exact ⟨m', hm', hnot⟩

/-- A table without factories lets no message through. -/
theorem walk_null (hnull : ∀ type, table type = none) {length : ℕ} {events : List Event}
    {exit : Option Exit} (hw : walk table memory fuel h length = some (events, exit)) :
    ∀ x ∈ callbacks events, x.1 = .routeError := by
  cases fuel with
  | zero => cases hw
  | succ fuel =>
    rw [walk] at hw
    simp only [hnull] at hw
    split_ifs at hw
    all_goals
      obtain ⟨rfl, rfl⟩ := Prod.mk.inj (Option.some.inj hw)
      simp [callbacks]

theorem receive_null (hnull : ∀ type, table type = none) {inputs : List Received}
    {events : List Event} {exit : Option Exit}
    (hr : receive table fuel inputs = some (events, exit)) :
    ∀ x ∈ callbacks events, x.1 = .routeError := by
  induction inputs generalizing events exit with
  | nil =>
    obtain ⟨rfl, rfl⟩ := Prod.mk.inj (Option.some.inj hr)
    simp [callbacks]
  | cons input rest ih =>
    cases input with
    | error => exact ih hr
    | datagram memory status =>
      rw [receive] at hr
      split at hr
      · obtain ⟨rfl, rfl⟩ := Prod.mk.inj (Option.some.inj hr)
        simp [callbacks]
      · split at hr
        · cases hr
        · rename_i hw
          obtain ⟨rfl, rfl⟩ := Prod.mk.inj (Option.some.inj hr)
          exact walk_null hnull hw
        · rename_i events₁ hw
          split at hr
          · cases hr
          · rename_i events₂ exit₂ hrest
            obtain ⟨rfl, rfl⟩ := Prod.mk.inj (Option.some.inj hr)
            intro x hx
            rw [callbacks, List.filterMap_append] at hx
            rcases List.mem_append.mp hx with hx | hx
            · exact walk_null hnull hw x hx
            · exact ih hrest x hx

theorem receive_datagram {status : ℕ} {events : List Event} {exit : Option Exit}
    (hstatus : status ≠ 0) (hw : walk table memory fuel 0 status = some (events, exit)) :
    receive table fuel [.datagram memory status] = some (events, exit) := by
  rw [receive, if_neg hstatus, hw]
  cases exit with
  | some exit => rfl
  | none => simp [receive]

theorem foldl_netLink (modules : List Module) (t : Tables) :
    (modules.foldl (fun t m => m.run t) t).netLink = t.netLink := by
  induction modules generalizing t with
  | nil => rfl
  | cons m modules ih =>
    rw [List.foldl_cons, ih]
    cases m <;> rfl

/-- Nothing fills the table that `receive` reads. -/
theorem appInit_netLink (modules : List Module) (type : Fin maxRtFactory) :
    (appInit modules).netLink type = none := by
  rw [appInit, foldl_netLink]

theorem foldl_tclNetLink {modules : List Module} {t : Tables}
    (h : .netLink ∈ modules ∨ t.tclNetLink = registeredTable) :
    (modules.foldl (fun t m => m.run t) t).tclNetLink = registeredTable := by
  induction modules generalizing t with
  | nil => exact h.resolve_left (by simp)
  | cons m modules ih =>
    rw [List.foldl_cons]
    cases m with
    | netLink => exact ih (.inr rfl)
    | other => exact ih (h.imp_left fun h => by simpa using h)

theorem overload_registered (type : ℕ) : (registered type).overload = overloadOf type := by
  unfold registered overloadOf
  split
  case h_13 => split <;> simp_all [Factory.overload]
  all_goals rfl

theorem overloadOf_ne (type : ℕ) : overloadOf type ≠ .routeError := by
  unfold overloadOf
  split <;> simp

theorem served_registered (htype : ∀ m ∈ ms, m.type < maxRtFactory) :
    served registeredTable h ms = delivered h ms := by
  induction ms generalizing h with
  | nil => rfl
  | cons m ms ih =>
    rw [served, delivered, dif_pos (htype m List.mem_cons_self), registeredTable]
    dsimp only
    rw [overload_registered, ih fun m' hm' => htype m' (List.mem_cons_of_mem _ hm')]

/-- With the table that `NetLink_Module` fills, the loop would deliver every message, in order
and through the overload of its type. -/
theorem registered_delivers {modules : List Module} (hinit : .netLink ∈ modules)
    (hd : Datagram padded ms bytes) (hm : Holds memory 0 bytes) (hlen : bytes.length ≤ bufferSize)
    (htype : ∀ m ∈ ms, m.type < maxRtFactory)
    (hend : padded = true ∨ ∃ m ∈ ms, m.Terminates) :
    ∃ events exit, walk (appInit modules).tclNetLink memory (ms.length + 1) 0 bytes.length =
      some (events, exit) ∧ callbacks events = delivered 0 ms := by
  unfold bufferSize at hlen
  rw [appInit, foldl_tclNetLink (.inl hinit), ← served_registered htype]
  refine walk_served hd hm (by omega) (fun m hm => (htype m hm).trans (by decide)) ?_ (by omega)
  exact hend.imp_right fun ⟨m, hm, ht⟩ => ⟨m, hm, fun h => h.1 ht⟩

/-- In the program as it is initialised, `receive` delivers the messages of a datagram if and
only if there is none before the one that ends it. -/
theorem receive_delivers_iff (modules : List Module) (hd : Datagram padded ms bytes)
    (hm : Holds memory 0 bytes) (hlen : bytes.length ≤ bufferSize)
    (htype : ∀ m ∈ ms, m.type < maxRtFactory) :
    (∃ fuel events exit, receive (appInit modules).netLink fuel
        [.datagram memory bytes.length] = some (events, exit) ∧
      callbacks events = delivered 0 ms) ↔ preceding ms = [] := by
  have hnull := appInit_netLink modules
  constructor
  · rintro ⟨fuel, events, exit, hr, hcalls⟩
    have herror := receive_null hnull hr
    rw [hcalls] at herror
    cases ms with
    | nil => rfl
    | cons m ms =>
      by_cases hend : m.Terminates
      · simp [preceding, hend]
      · rw [delivered, if_neg fun h => hend (.inl h), if_neg fun h => hend (.inr h)] at herror
        exact absurd (herror _ List.mem_cons_self) (overloadOf_ne m.type)
  · intro hpre
    cases ms with
    | nil =>
      cases hd
      exact ⟨0, [], some .finish, rfl, rfl⟩
    | cons m ms =>
      have hend : m.Terminates := by
        by_contra hend
        simp [preceding, hend] at hpre
      have hstatus : bytes.length ≠ 0 := by
        cases hd <;> simp [Message.length, sizeofHeader]
      have hnot : ¬ Passes (appInit modules).netLink m := fun h => h.1 hend
      unfold bufferSize at hlen
      obtain ⟨events, exit, hw, hcalls⟩ := walk_served hd hm (by omega)
        (fun m hm => (htype m hm).trans (by decide)) (.inr ⟨m, List.mem_cons_self, hnot⟩)
        (Nat.lt_succ_self _)
      refine ⟨_, events, exit, receive_datagram hstatus hw, hcalls.trans ?_⟩
      rw [served, delivered]
      rcases hend with hdone | herror
      · rw [if_pos hdone, if_pos hdone]
      · rw [if_pos herror, if_pos herror]

/-- A NEWLINK message with an empty `ifinfomsg`. -/
def oneLink : Message := ⟨16, 0, 0, 0, List.replicate 16 0⟩

theorem receive_delivers_iff_link :
    (∃ fuel events exit, receive (appInit [.netLink]).netLink fuel
        [.datagram (fun i => oneLink.bytes.getD i 0) oneLink.bytes.length] =
          some (events, exit) ∧
      callbacks events = delivered 0 [oneLink]) ↔ preceding [oneLink] = [] :=
  receive_delivers_iff [.netLink] .last (holds_getD _) (by decide) (by decide)

/-- A single NEWLINK message never reaches the callback. -/
theorem link_not_delivered :
    ¬ ∃ fuel events exit, receive (appInit [.netLink]).netLink fuel
        [.datagram (fun i => oneLink.bytes.getD i 0) oneLink.bytes.length] =
          some (events, exit) ∧
      callbacks events = delivered 0 [oneLink] := by
  rintro ⟨fuel, events, exit, hr, hcalls⟩
  have herror := receive_null (appInit_netLink [.netLink]) hr (.newLink, 0)
  rw [hcalls] at herror
  exact absurd (herror (by decide)) (by decide)

end Redx.NetLink
