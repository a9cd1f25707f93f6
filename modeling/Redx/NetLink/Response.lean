import Redx.NetLink.Bounds
import Redx.NetLink.Request

/-!
# The result of configuring an address

`set_interface_address` sends a request, receives until `receive` returns, and returns the error
that its handler keeps. The handler has no constructor, and only an error message assigns to it.
-/
namespace Redx.NetLink
open Library

/-- `sizeof(int)`, the part of a `struct nlmsgerr` that comes first. -/
def sizeofError : ℕ := 4

/-- `message.error` of the object made of an error message, as its 32 bits. -/
def errorAt (memory : ℕ → UInt8) (h : ℕ) : ℕ := valueAt memory (h + sizeofHeader) sizeofError

/-- The `receive` members of `RouteResponseHandler`, on the value of `_error`. -/
def handlerReceive (memory : ℕ → UInt8) (error : ℕ) : Event → ℕ
  | .deliver .routeError h => errorAt memory h
  | _ => error

def handle (memory : ℕ → UInt8) (error : ℕ) (events : List Event) : ℕ :=
  events.foldl (handlerReceive memory) error

/-- `RouteSocket::receive` with such a handler: its value at the end, and the exit. -/
def respond (table : Table) (fuel error : ℕ) : List Received → Option (ℕ × Option Exit)
  | [] => some (error, none)
  | .error :: rest => respond table fuel error rest
  | .datagram memory status :: rest =>
    if status = 0 then some (error, some .finish)
    else
      match walk table memory fuel 0 status with
      | none => none
      | some (events, some exit) => some (handle memory error events, some exit)
      | some (events, none) => respond table fuel (handle memory error events) rest

/-- `set_interface_address`: what it sends and what it returns, on the memory that the request
and the handler take up. -/
def setInterfaceAddress (table : Table) (fuel : ℕ) (request : ℕ → UInt8) (error : ℕ)
    (index : UInt32) (address : List.Vector UInt8 16) (inputs : List Received) :
    Option (List UInt8 × ℕ) :=
  match respond table fuel error inputs with
  | some (error, some _) =>
    some (Request.send (Request.build request Request.rtmNewaddr
      (Request.newAddress index (.v6 address) (some 64))), error)
  | _ => none

/-- In the datagram the loop comes to an error message at the header, and the error field of the
message is there. -/
structure ErrorIn (table : Table) (memory : ℕ → UInt8) (status h : ℕ) : Prop where
  comes : ∃ length, Tests table memory status h length ∧ NlmsgOk memory h length
  type : nlmsgType memory h = nlmsgError
  field : sizeofHeader + sizeofError ≤ nlmsgLen memory h
  received : h + nlmsgLen memory h ≤ status

/-- The value is the error field of an error message received. -/
def Reported (table : Table) (inputs : List Received) (v : ℕ) : Prop :=
  ∃ memory status h, .datagram memory status ∈ inputs ∧ ErrorIn table memory status h ∧
    v = errorAt memory h

variable {table : Table} {memory : ℕ → UInt8} {status h length fuel error v : ℕ}
  {events events' : List Event} {exit : Option Exit} {x : Exit} {earlier inputs : List Received}

/-- The handler does not take part in what `receive` does. -/
theorem respond_exit (table : Table) (fuel error : ℕ) (inputs : List Received) :
    (respond table fuel error inputs).map Prod.snd = (receive table fuel inputs).map Prod.snd := by
  induction inputs generalizing error with
  | nil => rfl
  | cons input rest ih =>
    cases input with
    | error => exact ih error
    | datagram memory status =>
      rw [respond, receive]
      split
      · rfl
      · cases hw : walk table memory fuel 0 status with
        | none => rfl
        | some result =>
          obtain ⟨events, exit⟩ := result
          cases exit with
          | some exit => rfl
          | none =>
            dsimp only
            rw [ih]
            cases receive table fuel rest <;> rfl

theorem overload_ne (factory : Factory) : factory.overload ≠ .routeError := by
  cases factory <;> decide

theorem handlerReceive_deliver {overload : Overload} (hne : overload ≠ .routeError) :
    handlerReceive memory error (.deliver overload h) = error := by
  cases overload <;> first | rfl | exact absurd rfl hne

/-- From every header that it tests the loop does the rest of what it does; before it comes there
the handler gets no error. -/
theorem walk_of_tests (ht : Tests table memory status h length)
    (hw : walk table memory fuel 0 status = some (events, exit)) :
    ∃ fuel' rest, walk table memory fuel' h length = some (rest, exit) ∧
      ∀ error, handle memory error events = handle memory error rest := by
  induction ht with
  | first => exact ⟨fuel, events, hw, fun _ => rfl⟩
  | @next h length _ hok hend hType hfactory ih =>
    obtain ⟨fuel', rest, hrest, hhandle⟩ := ih
    cases fuel' with
    | zero => cases hrest
    | succ fuel' =>
      rw [walk, if_pos hok] at hrest
      obtain ⟨factory, hfactory⟩ := Option.ne_none_iff_exists'.mp hfactory
      simp only [not_or, Ends] at hend
      simp only [hend, if_false, hType, dif_pos, hfactory] at hrest
      split at hrest
      · cases hrest
      · rename_i rest' exit' hrest'
        obtain ⟨rfl, rfl⟩ := Prod.mk.inj (Option.some.inj hrest)
        refine ⟨fuel', rest', hrest', fun error => (hhandle error).trans ?_⟩
        have hdeliver : handlerReceive memory error (.deliver factory.overload h) = error :=
          handlerReceive_deliver (overload_ne factory)
        exact congrArg (List.foldl (handlerReceive memory) · rest') hdeliver

/-- An error message that the loop comes to ends it, and gives the handler its value. -/
theorem walk_error (ht : Tests table memory status h length) (hok : NlmsgOk memory h length)
    (htype : nlmsgType memory h = nlmsgError)
    (hw : walk table memory fuel 0 status = some (events, exit)) :
    exit = some .finish ∧ ∀ error, handle memory error events = errorAt memory h := by
  obtain ⟨fuel', rest, hrest, hhandle⟩ := walk_of_tests ht hw
  cases fuel' with
  | zero => cases hrest
  | succ fuel' =>
    have hdone : nlmsgError ≠ nlmsgDone := by decide
    rw [walk, if_pos hok] at hrest
    simp only [htype, hdone, if_false, if_true] at hrest
    obtain ⟨rfl, rfl⟩ := Prod.mk.inj (Option.some.inj hrest)
    exact ⟨rfl, fun error => (hhandle error).trans rfl⟩

/-- `receive` goes on after a datagram if it is not empty and the loop over it has no exit. -/
theorem receive_passes (hpass : receive table fuel (.datagram memory status :: inputs) =
    some (events, none)) : status ≠ 0 ∧ ∃ events₁ events₂,
      walk table memory fuel 0 status = some (events₁, none) ∧
      receive table fuel inputs = some (events₂, none) := by
  rw [receive] at hpass
  by_cases hstatus : status = 0
  · rw [if_pos hstatus] at hpass
    cases hpass
  · rw [if_neg hstatus] at hpass
    refine ⟨hstatus, ?_⟩
    cases hw : walk table memory fuel 0 status with
    | none =>
      rw [hw] at hpass
      cases hpass
    | some result =>
      obtain ⟨events₁, exit₁⟩ := result
      rw [hw] at hpass
      cases exit₁ with
      | some exit₁ => cases hpass
      | none =>
        dsimp only at hpass
        cases hrest : receive table fuel inputs with
        | none =>
          rw [hrest] at hpass
          cases hpass
        | some result =>
          obtain ⟨events₂, exit₂⟩ := result
          rw [hrest] at hpass
          obtain ⟨-, rfl⟩ := Prod.mk.inj (Option.some.inj hpass)
          exact ⟨events₁, events₂, rfl, rfl⟩

/-- A datagram after which `receive` goes on has no error message. -/
theorem not_errorIn (hpass : receive table fuel earlier = some (events, none))
    (hmem : .datagram memory status ∈ earlier) : ¬ ErrorIn table memory status h := by
  induction earlier generalizing events with
  | nil => cases hmem
  | cons input rest ih =>
    intro herror
    cases input with
    | error => exact ih hpass (by simpa using hmem) herror
    | datagram memory' status' =>
      obtain ⟨-, events₁, events₂, hw, hlater⟩ := receive_passes hpass
      rcases List.mem_cons.mp hmem with heq | hrest
      · obtain ⟨rfl, rfl⟩ := Received.datagram.inj heq
        obtain ⟨length, ht, hok⟩ := herror.comes
        exact absurd (walk_error ht hok herror.type hw).1 (by simp)
      · exact ih hlater hrest herror

/-- What comes after the datagrams that `receive` goes on after finds the handler with some
value. -/
theorem respond_append (hpass : receive table fuel earlier = some (events, none)) (error : ℕ)
    (inputs : List Received) :
    ∃ error', respond table fuel error (earlier ++ inputs) = respond table fuel error' inputs := by
  induction earlier generalizing events error with
  | nil => exact ⟨error, rfl⟩
  | cons input rest ih =>
    cases input with
    | error => exact ih hpass error
    | datagram memory status =>
      obtain ⟨hstatus, events₁, events₂, hw, hlater⟩ := receive_passes hpass
      obtain ⟨error', hrespond⟩ := ih hlater (handle memory error events₁)
      refine ⟨error', ?_⟩
      rw [List.cons_append, respond, if_neg hstatus, hw]
      exact hrespond

/-- When `receive` returns after a datagram, what `set_interface_address` returns is the error of
a message received, whatever the handler held at first, if and only if the loop over that datagram
comes to an error message that is there. -/
theorem setInterfaceAddress_reports_iff (request : ℕ → UInt8) (index : UInt32)
    (address : List.Vector UInt8 16)
    (hpass : receive table fuel earlier = some (events, none))
    (hreturn : receive table fuel (earlier ++ [.datagram memory status]) =
      some (events', some x)) :
    (∃ v, Reported table (earlier ++ [.datagram memory status]) v ∧
      ∀ error, (setInterfaceAddress table fuel request error index address
        (earlier ++ [.datagram memory status])).map Prod.snd = some v) ↔
    ∃ h, ErrorIn table memory status h := by
  constructor
  · rintro ⟨v, ⟨memory', status', h, hmem, herror, -⟩, -⟩
    rcases List.mem_append.mp hmem with hmem | hmem
    · exact absurd herror (not_errorIn hpass hmem)
    · obtain ⟨rfl, rfl⟩ := Received.datagram.inj (List.mem_singleton.mp hmem)
      exact ⟨h, herror⟩
  · rintro ⟨h, herror⟩
    refine ⟨errorAt memory h, ⟨memory, status, h, by simp, herror, rfl⟩, fun error => ?_⟩
    obtain ⟨length, ht, hok⟩ := herror.comes
    have hstatus : status ≠ 0 := by
      have hfield := herror.field
      have hreceived := herror.received
      simp only [sizeofHeader] at hfield
      omega
    obtain ⟨error', hlater⟩ := respond_append hpass error [.datagram memory status]
    have hexit := respond_exit table fuel error (earlier ++ [.datagram memory status])
    rw [hreturn, hlater, respond, if_neg hstatus] at hexit
    cases hw : walk table memory fuel 0 status with
    | none =>
      rw [hw] at hexit
      cases hexit
    | some result =>
      obtain ⟨events₁, exit₁⟩ := result
      obtain ⟨rfl, hhandle⟩ := walk_error ht hok herror.type hw
      have hvalue : respond table fuel error (earlier ++ [.datagram memory status]) =
          some (errorAt memory h, some .finish) := by
        rw [hlater, respond, if_neg hstatus, hw]
        exact congrArg (fun e => some (e, some Exit.finish)) (hhandle error')
      rw [setInterfaceAddress, hvalue]
      rfl

/-- An error message with the error field -17. -/
def errorMessage : Message := ⟨2, 0, 1, 0, bytesOf 4 (2 ^ 32 - 17) ++ List.replicate 16 0⟩

/-- The address ::. -/
def unspecified : List.Vector UInt8 16 := .replicate 16 0

theorem setInterfaceAddress_reports_iff_error :
    (∃ v, Reported (appInit [.netLink]).netLink
        ([] ++ [.datagram (fun i => errorMessage.bytes.getD i 0) 36]) v ∧
      ∀ error, (setInterfaceAddress (appInit [.netLink]).netLink 1 (fun _ => 0) error 1
        unspecified ([] ++ [.datagram (fun i => errorMessage.bytes.getD i 0) 36])).map
          Prod.snd = some v) ↔
    ∃ h, ErrorIn (appInit [.netLink]).netLink (fun i => errorMessage.bytes.getD i 0) 36 h := by
  have hpass : receive (appInit [.netLink]).netLink 1 [] = some ([], none) := rfl
  have hreturn : receive (appInit [.netLink]).netLink 1
      ([] ++ [.datagram (fun i => errorMessage.bytes.getD i 0) 36]) =
        some ([.header 0 36, .deliver .routeError 0], some .finish) := by decide +kernel
  exact setInterfaceAddress_reports_iff (fun _ => 0) 1 unspecified hpass hreturn

/-- The message that ends a dump. -/
def doneMessage : Message := ⟨3, 0, 1, 0, []⟩

/-- After a message that only ends the answer, the value returned is what the handler held. -/
theorem error_not_assigned :
    receive (appInit [.netLink]).netLink 1
      ([] ++ [.datagram (fun i => doneMessage.bytes.getD i 0) 16]) =
        some ([.header 0 16], some .finish) ∧
    ¬ ∃ v, Reported (appInit [.netLink]).netLink
        ([] ++ [.datagram (fun i => doneMessage.bytes.getD i 0) 16]) v ∧
      ∀ error, (setInterfaceAddress (appInit [.netLink]).netLink 1 (fun _ => 0) error 1
        unspecified ([] ++ [.datagram (fun i => doneMessage.bytes.getD i 0) 16])).map
          Prod.snd = some v := by
  refine ⟨by decide +kernel, ?_⟩
  rintro ⟨v, -, hvalue⟩
  have hzero : some v = some 0 := (hvalue 0).symm.trans (by decide +kernel)
  have hone : some v = some 1 := (hvalue 1).symm.trans (by decide +kernel)
  exact absurd (hzero.symm.trans hone) (by decide)

end Redx.NetLink
