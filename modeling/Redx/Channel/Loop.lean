import Redx.Channel.Message

/-!
# The loop of a service

`Service::run` receives, asks whether the sender is alive, evaluates and replies. A `msgrcv` that
fails is logged, and the loop goes on with what lies in the uninitialised `request`.
-/
namespace Redx.Channel

/-- A request that a client sent. -/
structure Request where
  src : ℤ
  body : List UInt8
  bounded : body.length < sizeofBody
  deriving DecidableEq, Repr

/-- A call of `msgrcv` fills `request`, or it fails; then the stack held a sender there, and a
string of any length. -/
inductive Outcome where
  | received (request : Request)
  | failed (src : ℤ) (body : List UInt8)
  deriving DecidableEq, Repr

/-- What one pass of the loop is answered: by `msgrcv`, by `kill`, by `Tcl_EvalEx` and by
`Tcl_GetStringResult`. -/
structure Pass where
  outcome : Outcome
  alive : Bool
  result : ℤ
  string : List UInt8
  deriving DecidableEq, Repr

inductive Effect where
  | evaluate (script : List UInt8)
  | reply (dst result : ℤ) (message : List UInt8)
  deriving DecidableEq, Repr

/-- `Channel::receive`: the sender, and the string that the buffer then holds. -/
def receive (length : ℕ) : Outcome → ℤ × List UInt8
  | .received request => (request.src, strlcpy request.body length)
  | .failed src body => (src, strlcpy body length)

/-- The body of the loop. -/
def Pass.effects (pass : Pass) : List Effect :=
  let (sender, request) := receive sizeofBuffer pass.outcome
  if pass.alive = false then []
  else
    let response := strlcpy pass.string sizeofBuffer
    [.evaluate request, .reply sender pass.result (strlcpy response sizeofBody)]

/-- `Service::run`, as far as the passes go. -/
def run : List Pass → List Effect
  | [] => []
  | pass :: passes => pass.effects ++ run passes

/-- The scripts passed to `Tcl_EvalEx`. -/
def scripts : List Effect → List (List UInt8)
  | [] => []
  | .evaluate script :: effects => script :: scripts effects
  | .reply .. :: effects => scripts effects

def Pass.Failed (pass : Pass) : Prop := ∃ src body, pass.outcome = .failed src body

/-- The bodies of the requests that were dequeued and whose sender is alive. -/
def requested : List Pass → List (List UInt8)
  | [] => []
  | pass :: passes =>
    match pass.outcome, pass.alive with
    | .received request, true => request.body :: requested passes
    | _, _ => requested passes

/-- Each request of a living sender is evaluated once, in turn, and a failure has no effect. -/
def ExactlyOnce (passes : List Pass) : Prop :=
  scripts (run passes) = requested passes ∧ ∀ pass ∈ passes, pass.Failed → pass.effects = []

variable {passes : List Pass} {pass : Pass} {effects effects' : List Effect}

theorem scripts_append : scripts (effects ++ effects') = scripts effects ++ scripts effects' := by
  induction effects with
  | nil => rfl
  | cons effect effects ih => cases effect <;> simp [scripts, ih]

/-- The buffer of the service holds every request whole. -/
theorem strlcpy_body (request : Request) : strlcpy request.body sizeofBuffer = request.body := by
  have hlt : sizeofBody ≤ sizeofBuffer - 1 := by decide
  exact List.take_of_length_le (Nat.le_trans (Nat.le_of_lt request.bounded) hlt)

theorem scripts_received {request : Request} (h : pass.outcome = .received request) :
    scripts (run (pass :: passes)) =
      if pass.alive then request.body :: scripts (run passes) else scripts (run passes) := by
  rw [run, scripts_append, Pass.effects, h]
  cases pass.alive
  · rfl
  · simp [receive, scripts, strlcpy_body]

theorem requested_received {request : Request} (h : pass.outcome = .received request) :
    requested (pass :: passes) =
      if pass.alive then request.body :: requested passes else requested passes := by
  rw [requested, h]
  cases pass.alive <;> rfl

theorem requested_failed (h : pass.Failed) : requested (pass :: passes) = requested passes := by
  obtain ⟨src, body, h⟩ := h
  rw [requested, h]

theorem Pass.effects_eq_nil : pass.effects = [] ↔ pass.alive = false := by
  cases halive : pass.alive <;> simp [Pass.effects, halive]

/-- A failure with a living sender makes one evaluation more. -/
theorem length_scripts_failed (halive : pass.alive = true) :
    (scripts (run (pass :: passes))).length = (scripts (run passes)).length + 1 := by
  rw [run, scripts_append, Pass.effects, halive]
  simp [scripts]

theorem Pass.received_or_failed (pass : Pass) :
    (∃ request, pass.outcome = .received request) ∨ pass.Failed := by
  cases h : pass.outcome with
  | received request => exact .inl ⟨request, rfl⟩
  | failed src body => exact .inr ⟨src, body, h⟩

/-- No request is lost: only further scripts can come in. -/
theorem length_requested_le (passes : List Pass) :
    (requested passes).length ≤ (scripts (run passes)).length := by
  induction passes with
  | nil => exact Nat.le_refl _
  | cons pass passes ih =>
    rcases pass.received_or_failed with ⟨request, h⟩ | h
    · rw [scripts_received h, requested_received h]
      cases pass.alive
      · exact ih
      · exact Nat.succ_le_succ ih
    · rw [requested_failed h, run, scripts_append, List.length_append]
      omega

/-- The scripts are those requested if and only if no failure finds a living sender. -/
theorem scripts_eq_iff (passes : List Pass) : scripts (run passes) = requested passes ↔
    ∀ pass ∈ passes, pass.Failed → pass.alive = false := by
  induction passes with
  | nil => exact ⟨fun _ => nofun, fun _ => rfl⟩
  | cons pass passes ih =>
    rw [List.forall_mem_cons, ← ih]
    rcases pass.received_or_failed with ⟨request, h⟩ | h
    · have hnot : ¬ pass.Failed := by
        rintro ⟨src, body, hfailed⟩
        rw [h] at hfailed
        cases hfailed
      rw [scripts_received h, requested_received h]
      cases pass.alive <;> simp [hnot]
    · rw [requested_failed h]
      cases halive : pass.alive with
      | false => simp [run, Pass.effects_eq_nil.mpr halive]
      | true =>
        have hlength :
            (scripts (run (pass :: passes))).length = (scripts (run passes)).length + 1 :=
          length_scripts_failed halive
        have hle := length_requested_le passes
        constructor
        · intro heq
          rw [heq] at hlength
          omega
        · exact fun hno => nomatch hno.1 h

/-- Every run evaluates each request once, and nothing else, if and only if no `msgrcv` that
fails leaves a living sender in `request`. -/
theorem exactlyOnce_iff (passes : List Pass) : ExactlyOnce passes ↔
    ∀ pass ∈ passes, ∀ src body, pass.outcome = .failed src body → pass.alive = false := by
  have hfailed : (∀ pass ∈ passes, pass.Failed → pass.alive = false) ↔
      ∀ pass ∈ passes, ∀ src body, pass.outcome = .failed src body → pass.alive = false := by
    refine forall₂_congr fun pass _ => ?_
    exact ⟨fun h src body heq => h ⟨src, body, heq⟩, fun h ⟨src, body, heq⟩ => h src body heq⟩
  rw [← hfailed, ExactlyOnce, scripts_eq_iff]
  exact and_iff_left_of_imp fun h pass hpass hf => Pass.effects_eq_nil.mpr (h pass hpass hf)

/-- Process 7 asks for `pwd` and is answered `/`. The next `msgrcv` fails and finds the reply,
where `Channel::send` had built it: from 1, which is alive. -/
def interrupted : List Pass := [
  ⟨.received ⟨7, [112, 119, 100], by decide⟩, true, 0, [47]⟩,
  ⟨.failed 1 [47], true, 1, []⟩]

theorem not_exactlyOnce : ¬ ExactlyOnce interrupted := by
  rintro ⟨h, -⟩
  revert h
  decide

end Redx.Channel
