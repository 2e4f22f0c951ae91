import CatalogEdit.Residue

/-!
# Requests to change prices

A request raises, lowers or sets the price or the compare-at price. The word decides the
direction, never the sign that is written: raising beats lowering, and lowering beats setting.
A percentage beats an amount of money.

## Main definitions

* `PriceIntent` — what a request wants of a price.
* `PriceIntent.amount?` — by how much, or to what.
* `PriceRequest.respond` — the response to a request about prices.
-/

namespace CatalogEdit

open Lexicon Mention

/-! ## Intents -/

inductive PriceIntent where
  | increase
  | decrease
  | set
deriving DecidableEq, Repr

namespace PriceIntent

def ofText? (t : Text) : Option PriceIntent :=
  if Text.hasAnyWordStart Price.increase t then
    some .increase
  else if Text.hasAnyWordStart Price.decrease t then
    some .decrease
  else if Text.hasAnyWordStart Price.set t && Text.hasAnyWordStart Price.price t then
    some .set
  else
    none

/-- A percentage or else an amount of money, with the given sign. -/
def signedAmount? (negative : Bool) (t : Text) : Option (PriceMode × Binary64) :=
  match percentage? t with
  | some percent => some (.byPercent, percent.signed negative)
  | none => (currencyAmount? t).map fun amount => (.byAmount, amount.signed negative)

def amount? (t : Text) : PriceIntent → Option (PriceMode × Binary64)
  | .increase => signedAmount? false t
  | .decrease => signedAmount? true t
  | .set => (currencyAmount? t).map fun amount => (.set, amount)

/-- The end of a summary key. -/
def summaryEnding : PriceIntent → PriceMode → Text
  | .set, _ => utf8 "Set"
  | .increase, .byPercent => utf8 "IncreasePercent"
  | .increase, _ => utf8 "IncreaseValue"
  | .decrease, .byPercent => utf8 "DecreasePercent"
  | .decrease, _ => utf8 "DecreaseValue"

end PriceIntent

/-! ## The response -/

namespace PriceRequest

def isCompareAt (t : Text) : Bool := Text.hasAnyWordStart Price.compareAt t

/-- The plan for a known intent and amount. -/
def plan (t : Text) (intent : PriceIntent) (mode : PriceMode) (value : Binary64) : Plan where
  edit :=
    { change := if isCompareAt t then .compareAt { mode, value } else .price { mode, value } }
  selection := Selection.ofText t Price.commandWords
  summaryKey := some
    ((if isCompareAt t then Summary.compareAt else Summary.price) ++ intent.summaryEnding mode)

def respond (t : Text) : Response :=
  match (PriceIntent.ofText? t).bind fun intent =>
    (intent.amount? t).map fun amount => (intent, amount) with
  | some (intent, mode, value) => .plan (plan t intent mode value)
  | none => .ask { code := .missingAmount, messageKey := Message.missingAmount }

end PriceRequest

end CatalogEdit
