import CatalogEdit.Json.Parser
import CatalogEdit.Wire.Encode
import CatalogEdit.Wire.Request

/-!
# The planning endpoint

A body is read, planned and answered with a status and a JSON value. Faults are kept apart by
their origin: a body that is no request and a request that is refused are the sender's, a
planner that fails is ours. One fault is nobody's: a body with a number out of range is not
answered, since nothing catches the exception with which reading it ends.

## Main definitions

* `Planner`, `Failure` — whatever answers requests, and the message with which it may fail.
* `Outcome`, `Outcome.ofBody` — what became of a body.
* `Outcome.result`, `Outcome.log` — what is sent back, and what is logged.
* `Ending`, `Endpoint.answer` — the reply to a body, or the exception in its place.
-/

namespace CatalogEdit

/-! ## Planners -/

/-- Why a planner gave no response. -/
structure Failure where
  message : Text
  nul_notMem : Byte.nul ∉ message
deriving DecidableEq

def Failure.ofText (t : Text) : Failure := ⟨t.untilNul, t.nul_notMem_untilNul⟩

def Failure.ofViolation (v : Violation) : Failure := .ofText v.message

abbrev Planner := Request → Except Failure Response

/-- The planner of this library. It fails if its response breaks a rule. -/
def defaultPlanner : Planner := fun r => r.respond.mapError Failure.ofViolation

/-! ## Outcomes -/

inductive Outcome where
  /-- The body is not JSON, from the given position on. -/
  | unreadable (position : Nat)
  /-- Reading the body ends with an exception that is not caught. -/
  | escaped (message : Text)
  | rejected (error : RequestError)
  | answered (request : Request) (response : Response)
  | failed (failure : Failure)

namespace Outcome

def ofRequest (planner : Planner) (request : Request) : Outcome :=
  match planner request with
  | .ok response => .answered request response
  | .error failure => .failed failure

def ofJson (planner : Planner) (j : Json) : Outcome :=
  match Request.decode j with
  | .ok request => ofRequest planner request
  | .error e => .rejected e

/-- Malformed JSON is expected of a body, and no other fault is. -/
def ofFault : Json.Fault → Outcome
  | .malformed position => .unreadable position
  | fault => .escaped fault.message

def ofBody (planner : Planner) (body : Text) : Outcome :=
  match Json.read body with
  | .ok j => ofJson planner j
  | .error fault => ofFault fault

end Outcome

/-! ## Replies -/

structure Reply where
  status : Nat
  body : Json

/-- The reply that something is wrong, and what. -/
def Reply.error (status : Nat) (code message : Text) : Reply :=
  ⟨status, Refusal.encode ⟨code, message⟩⟩

namespace Outcome

/-- The code of a refusal for which the planner is to blame. -/
def failedCode : Text := utf8 "plan.failed"

def unreadableMessage (position : Nat) : Text :=
  utf8 "body: invalid JSON at byte " ++ Text.decimal position

/-- The reply, or the message of the exception in its place. -/
def result : Outcome → Except Text Reply
  | .unreadable position =>
    .ok (.error 400 Refusal.invalidRequestCode (unreadableMessage position))
  | .escaped message => .error message
  | .rejected e => .ok (.error 400 Refusal.invalidRequestCode e.message)
  | .answered _ response => .ok ⟨if response.isRefusal then 400 else 200, response.encode⟩
  | .failed failure => .ok (.error 500 failedCode failure.message)

/-! ## The log -/

def logLine (t : Text) : Text := utf8 "[PlanHandler] " ++ t ++ utf8 "\n"

/-- How much of a body is logged. -/
abbrev maxLoggedBody : Nat := 300

def bodyLine (body : Text) : Text :=
  logLine (utf8 "Body: " ++
    if body.length ≤ maxLoggedBody then body
    else body.take maxLoggedBody ++ utf8 " ...(truncated)")

/-- What is logged only on demand, after the body itself. -/
def verboseLine : Outcome → Text
  | .unreadable position =>
    logLine (utf8 "Rejected unparseable body: " ++ (Json.Fault.malformed position).message)
  | .escaped _ => []
  | .rejected e => logLine (utf8 "Rejected request: " ++ e.message)
  | .answered request response =>
    logLine (utf8 "action=" ++ response.action ++ utf8 " locale=" ++
      request.locale.getD (utf8 "-"))
  | .failed _ => []

/-- What is always logged. -/
def failureLine : Outcome → Text
  | .failed failure => logLine (utf8 "/api/plan failed: " ++ failure.message)
  | _ => []

def log (verbose : Bool) (body : Text) (o : Outcome) : Text :=
  (if verbose then bodyLine body ++ o.verboseLine else []) ++ o.failureLine

end Outcome

/-! ## The endpoint -/

/-- How handling a body ends: with a reply or with the message of an exception. -/
structure Ending where
  result : Except Text Reply
  log : Text

namespace Ending

/-- The status that is sent; zero if there is no reply. -/
def status (e : Ending) : Nat := e.result.toOption.elim 0 Reply.status

/-- The value that is sent; null if there is no reply. -/
def body (e : Ending) : Json := e.result.toOption.elim .null Reply.body

end Ending

def Outcome.ending (verbose : Bool) (body : Text) (o : Outcome) : Ending :=
  ⟨o.result, o.log verbose body⟩

def Endpoint.answer (planner : Planner) (verbose : Bool) (body : Text) : Ending :=
  (Outcome.ofBody planner body).ending verbose body

end CatalogEdit
