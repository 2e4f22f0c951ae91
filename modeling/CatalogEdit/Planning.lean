import CatalogEdit.Plan.Inventory
import CatalogEdit.Plan.Price
import CatalogEdit.Plan.Status
import CatalogEdit.Plan.Tags
import CatalogEdit.Rule.Check

/-!
# Planning

A request is about the first topic of which some word stands in it, and the words of that topic
decide the response. The response is checked against the rules before it is given out.

## Main definitions

* `Topic.ofText?` — the topic of a request.
* `respondToText` — the response to the text of a request.
* `Request`, `Request.respond` — a request with its locale, and the response to it.
-/

namespace CatalogEdit

/-! ## Topics -/

def Topic.ofText? (t : Text) : Option Topic :=
  (Lexicon.topicWords.find? fun row => Text.anyOccurs row.2 t).map (·.1)

def Topic.respond (t : Text) : Topic → Response
  | .price => PriceRequest.respond t
  | .tags => TagRequest.respond t
  | .inventory => InventoryRequest.respond t
  | .status => StatusRequest.respond t

/-! ## Texts -/

/-- The response to a trimmed text, before it is checked. -/
def draftResponse (t : Text) : Response :=
  match Topic.ofText? t with
  | some topic => topic.respond t
  | none => .ask { code := .unrecognized, messageKey := Lexicon.Message.unrecognized }

def respondToText (t : Text) : Except Violation Response := (draftResponse t.trim).check

/-! ## Requests -/

structure Request where
  text : Text
  /-- The language of the sender; it is handed on and decides nothing here. -/
  locale : Option Text := none
deriving DecidableEq, Repr

/-- The code of a refusal of something that is no request. -/
def Refusal.invalidRequestCode : Text := utf8 "plan.invalid_request"

def Refusal.blankText : Refusal :=
  ⟨invalidRequestCode, utf8 "text: must be a non-empty string"⟩

def Request.respond (r : Request) : Except Violation Response :=
  if r.text.label?.isNone then .ok (.refusal Refusal.blankText) else respondToText r.text

end CatalogEdit
