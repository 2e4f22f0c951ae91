import CatalogEdit.Mention.Status
import CatalogEdit.Residue

/-!
# Requests to change the status

## Main definitions

* `StatusRequest.respond` — the response to a request about the status of items. If the request
  names no status, all of them are offered.
-/

namespace CatalogEdit.StatusRequest

open Lexicon

/-- The key of the label under which a status is offered. -/
def labelKey : CatalogEdit.Status → Text
  | .active => Message.statusActive
  | .draft => Message.statusDraft
  | .archived => Message.statusArchived

def choices : List Choice :=
  (Named.all : List CatalogEdit.Status).map fun s => ⟨Named.name s, labelKey s⟩

def plan (t : Text) (status : CatalogEdit.Status) : Plan where
  edit := { change := .status status }
  selection := Selection.ofText t Lexicon.Status.commandWords
  summaryKey := some Summary.status

def respond (t : Text) : Response :=
  match Mention.status? t with
  | some status => .plan (plan t status)
  | none =>
    .ask { code := .unsupported, messageKey := Message.unsupportedStatus, options := choices }

end CatalogEdit.StatusRequest
