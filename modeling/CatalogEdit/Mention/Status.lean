import CatalogEdit.Text.Word
import CatalogEdit.Lexicon

/-!
# The status in a request

## Main definitions

* `Mention.status?` — the status of the first rule with a keyword at the start of a word.
-/

namespace CatalogEdit.Mention

def status? (t : Text) : Option Status :=
  (Lexicon.statusWords.find? fun rule => Text.hasAnyWordStart rule.2 t).map (·.1)

end CatalogEdit.Mention
