import CatalogEdit.Mention.Phrase
import CatalogEdit.Residue

/-!
# Requests to change stock

Stock is changed at one place by a whole quantity. The name of the place is taken out of the
request before the quantity is read, so that digits in the name are never the quantity. A
request without a place keeps its quantity as a draft.

## Main definitions

* `InventoryMode.ofText` — whether stock is set, increased or decreased.
* `InventoryRequest.quantity?` — the quantity of a request.
* `InventoryRequest.respond` — the response to a request about stock.
-/

namespace CatalogEdit

open Lexicon

/-- A word of decrease beats a word of increase. -/
def InventoryMode.ofText (t : Text) : InventoryMode :=
  if Text.hasAnyWordStart Inventory.decrease t then .decrease
  else if Text.hasAnyWordStart Inventory.increase t then .increase
  else .set

namespace InventoryRequest

/-- Up to this quantity every whole number is a floating-point number. -/
abbrev maxQuantity : Nat := Nat.pow 2 53 - 1

/-! ## Place and quantity -/

/-- The request without the name of its place. -/
def withoutPlace (t : Text) : Text :=
  match Mention.location? t with
  | none => t
  | some place => Text.removeWord place t

/-- The absolute value of `x`, if that is a whole number and not too large. -/
def wholeQuantity? (x : Binary64) : Option Int :=
  x.abs.toInt?.filter fun n => n ≤ maxQuantity

def quantity? (t : Text) : Option Int :=
  (Mention.plainNumber? (withoutPlace t)).bind wholeQuantity?

/-! ## The response -/

def edit (t : Text) (quantity : Int) : Edit where
  scope := .variant
  change := .inventory
    { mode := InventoryMode.ofText t, value := quantity, location := Mention.location? t }

def selection (t : Text) : Selection := Selection.ofText (withoutPlace t) Inventory.commandWords

def draft (t : Text) (quantity : Int) : Draft where
  edit := some (edit t quantity)
  selection := some (selection t)
  confidence := some .low

def plan (t : Text) (quantity : Int) : Plan where
  edit := edit t quantity
  selection := selection t
  summaryKey := some Summary.inventory

def amountIssue : Issue := { code := .missingAmount, messageKey := Message.missingAmount }

def placeIssue : Issue := { code := .locationRequired, messageKey := Message.locationRequired }

def respond (t : Text) : Response :=
  match quantity? t, Mention.location? t with
  | some quantity, some _ => .plan (plan t quantity)
  | some quantity, none =>
    .clarification { issues := [placeIssue], draft := some (draft t quantity) }
  | none, some _ => .ask amountIssue
  | none, none => .clarification { issues := [amountIssue, placeIssue] }

end InventoryRequest

end CatalogEdit
