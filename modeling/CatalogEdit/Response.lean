import CatalogEdit.Edit
import CatalogEdit.Selection

/-!
# Responses

What a request to edit the catalogue is answered with: a plan that can be carried out, the
questions that have to be settled first, or a refusal.

## Main definitions

* `Response` — plan, clarification or refusal.
* `Plan` — an edit, the items it is meant for, and how sure the planner is.
* `Clarification`, `Issue`, `Draft` — the open questions, and what was understood so far.
-/

namespace CatalogEdit

inductive Confidence where
  | high
  | medium
  | low
deriving DecidableEq, Repr

instance : Named Confidence where
  all := [.high, .medium, .low]
  name
    | .high => utf8 "high"
    | .medium => utf8 "medium"
    | .low => utf8 "low"

inductive IssueCode where
  | locationRequired
  | unrecognized
  | unsupported
  | missingAmount
  | missingTagValues
deriving DecidableEq, Repr

instance : Named IssueCode where
  all := [.locationRequired, .unrecognized, .unsupported, .missingAmount, .missingTagValues]
  name
    | .locationRequired => utf8 "inventory.requireLocation"
    | .unrecognized => utf8 "plan.unrecognized"
    | .unsupported => utf8 "plan.unsupported"
    | .missingAmount => utf8 "plan.missingAmount"
    | .missingTagValues => utf8 "plan.missingTagValues"

/-- An answer that can be chosen, and the key of its label. -/
structure Choice where
  value : Text
  labelKey : Text
deriving DecidableEq, Repr

structure Issue where
  code : IssueCode
  messageKey : Text
  options : List Choice := []
deriving DecidableEq, Repr

structure Plan where
  edit : Edit
  selection : Selection
  confidence : Confidence := .medium
  summaryKey : Option Text := none
deriving DecidableEq

/-- What was understood although something is still open. -/
structure Draft where
  edit : Option Edit := none
  selection : Option Selection := none
  confidence : Option Confidence := none
  summaryKey : Option Text := none
deriving DecidableEq

structure Clarification where
  issues : List Issue
  draft : Option Draft := none
deriving DecidableEq

structure Refusal where
  code : Text
  message : Text
deriving DecidableEq, Repr

inductive Response where
  | plan (plan : Plan)
  | clarification (clarification : Clarification)
  | refusal (refusal : Refusal)
deriving DecidableEq

/-- A clarification with one open question and nothing drafted. -/
def Response.ask (issue : Issue) : Response := .clarification ⟨[issue], none⟩

def Response.isRefusal : Response → Bool
  | .refusal _ => true
  | _ => false

end CatalogEdit
