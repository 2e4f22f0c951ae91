import CatalogEdit.Response

/-!
# Lexicon

The words by which a request is understood, and the keys of the messages it is answered with.
All words are compared without regard to the case of ASCII letters.

## Main definitions

* `Lexicon.stopWords`, `Lexicon.currencySymbols` — words that select nothing, and the
  signs that mark an amount of money.
* `Lexicon.topicWords`, `Lexicon.statusWords` — ordered tables; the first row with a
  word of the text wins.
* `Lexicon.Price`, `Lexicon.Tags`, `Lexicon.Inventory`, `Lexicon.Status` — the words
  of each topic: those that choose a mode, and those that belong to the command and so never
  describe items.
-/

namespace CatalogEdit

/-- The kinds of request that can be planned. -/
inductive Topic where
  | price
  | tags
  | inventory
  | status
deriving DecidableEq, Repr

instance : Named Topic where
  all := [.price, .tags, .inventory, .status]
  name
    | .price => utf8 "price"
    | .tags => utf8 "tags"
    | .inventory => utf8 "inventory"
    | .status => utf8 "status"

namespace Lexicon

/-! ## Words of every request -/

/-- Words that never say which items are meant. -/
def stopWords : List Text :=
  ["please", "all", "products", "product", "items", "item", "the", "to", "for", "of", "with",
    "and", "that", "my"].map utf8

def currencySymbols : List Text := ["$", "€", "£", "₹", "¥", "₤", "₱", "₦", "₽"].map utf8

/-- The words that lead to a topic, wherever they stand, even inside another word. -/
def topicWords : List (Topic × List Text) :=
  [(.price, ["price"].map utf8),
    (.tags, ["tag"].map utf8),
    (.inventory, ["inventory", "stock", "quantity"].map utf8),
    (.status, ["publish", "unpublish", "archive", "draft"].map utf8)]

/-- The words at whose sight a status is meant. -/
def statusWords : List (CatalogEdit.Status × List Text) :=
  [(.draft, ["unpublish"].map utf8),
    (.active, ["publish", "activate"].map utf8),
    (.draft, ["draft"].map utf8),
    (.archived, ["archive"].map utf8)]

/-! ## Prices -/

namespace Price

def increase : List Text := ["increase", "raise"].map utf8

def decrease : List Text := ["decrease", "reduce", "lower"].map utf8

def set : List Text := ["set", "change"].map utf8

def price : List Text := ["price"].map utf8

def compareAt : List Text := ["compare at", "compare-at", "compare_at"].map utf8

def commandWords : List Text :=
  ["compare at", "compare-at", "compare_at", "price", "prices", "increase", "raise", "decrease",
    "reduce", "lower", "set", "change", "by"].map utf8

end Price

/-! ## Tags -/

namespace Tags

def replace : List Text := ["replace"].map utf8

def remove : List Text := ["remove", "delete"].map utf8

def commandWords : List Text :=
  ["tag", "tags", "tagged", "add", "remove", "delete", "replace"].map utf8

end Tags

/-! ## Inventory -/

namespace Inventory

def increase : List Text := ["increase", "add", "plus"].map utf8

def decrease : List Text := ["decrease", "remove", "minus", "deduct"].map utf8

def commandWords : List Text :=
  ["inventory", "stock", "quantity", "quantities", "units", "increase", "add", "plus",
    "decrease", "remove", "minus", "deduct", "set", "by", "location", "at", "in"].map utf8

end Inventory

/-! ## Status -/

namespace Status

def commandWords : List Text :=
  ["unpublish", "publish", "activate", "archive", "archived", "draft", "drafts", "status"].map
    utf8

end Status

/-- The words of a command of the given topic, which never describe items. -/
def commandWords : Topic → List Text
  | .price => Price.commandWords
  | .tags => Tags.commandWords
  | .inventory => Inventory.commandWords
  | .status => Status.commandWords

/-! ## Message keys -/

namespace Message

def missingAmount : Text := utf8 "plan.clarify.missingAmount"
def missingTags : Text := utf8 "plan.clarify.missingTags"
def locationRequired : Text := utf8 "plan.clarify.requireLocation"
def unsupportedStatus : Text := utf8 "plan.clarify.unsupportedStatus"
def unrecognized : Text := utf8 "plan.clarify.unrecognized"

def statusActive : Text := utf8 "plan.status.active"
def statusDraft : Text := utf8 "plan.status.draft"
def statusArchived : Text := utf8 "plan.status.archived"

end Message

namespace Summary

def price : Text := utf8 "plan.summary.price"
def compareAt : Text := utf8 "plan.summary.compareAt"
def inventory : Text := utf8 "plan.summary.inventoryAdjust"
def status : Text := utf8 "plan.summary.statusChange"

def tags : TagMode → Text
  | .add => utf8 "plan.summary.tagsAdd"
  | .remove => utf8 "plan.summary.tagsRemove"
  | .replace => utf8 "plan.summary.tagsReplace"

end Summary

end Lexicon

end CatalogEdit
