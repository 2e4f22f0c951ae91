import CatalogEdit.Mention.Tags
import CatalogEdit.Residue

/-!
# Requests to change tags

Tags are added unless the request speaks of replacing or removing; replacing beats removing.

## Main definitions

* `TagMode.ofText` — what a request wants done with its tags.
* `TagRequest.respond` — the response to a request about tags.
-/

namespace CatalogEdit

open Lexicon

def TagMode.ofText (t : Text) : TagMode :=
  if Text.hasAnyWordStart Tags.replace t then .replace
  else if Text.hasAnyWordStart Tags.remove t then .remove
  else .add

namespace TagRequest

def plan (t : Text) (values : List Text) : Plan where
  edit := { change := .tags { mode := TagMode.ofText t, values } }
  selection := Selection.ofText t Tags.commandWords
  summaryKey := some (Summary.tags (TagMode.ofText t))

def respond (t : Text) : Response :=
  if (Mention.tags t).isEmpty then
    .ask { code := .missingTagValues, messageKey := Message.missingTags }
  else
    .plan (plan t (Mention.tags t))

end TagRequest

end CatalogEdit
