import CatalogEdit.Named
import CatalogEdit.Number.Binary64

/-!
# Edits

What a bulk edit does to every item it is applied to: one change of price, compare-at price,
tags, stock, status, metafield or search-engine text, and when and at which level of the
catalogue it takes effect.

## Main definitions

* `Edit` — scope, schedule and change.
* `Change` — the change itself, with the values each kind needs.
* `Edit.operation` — the kind of the change.
-/

namespace CatalogEdit

/-! ## Choices -/

inductive Scope where
  | product
  | variant
deriving DecidableEq, Repr

instance : Named Scope where
  all := [.product, .variant]
  name
    | .product => utf8 "product"
    | .variant => utf8 "variant"

inductive Operation where
  | price
  | compareAt
  | tags
  | inventory
  | status
  | metafield
  | seo
deriving DecidableEq, Repr

instance : Named Operation where
  all := [.price, .compareAt, .tags, .inventory, .status, .metafield, .seo]
  name
    | .price => utf8 "price"
    | .compareAt => utf8 "compare_at"
    | .tags => utf8 "tags"
    | .inventory => utf8 "inventory"
    | .status => utf8 "status"
    | .metafield => utf8 "metafield"
    | .seo => utf8 "seo"

/-- A change by a percentage or by an amount carries its sign; a set price is the new price. -/
inductive PriceMode where
  | byPercent
  | byAmount
  | set
deriving DecidableEq, Repr

instance : Named PriceMode where
  all := [.byPercent, .byAmount, .set]
  name
    | .byPercent => utf8 "inc_percent"
    | .byAmount => utf8 "inc_value"
    | .set => utf8 "set"

inductive RoundingMode where
  | nearest
  | up
  | down
deriving DecidableEq, Repr

instance : Named RoundingMode where
  all := [.nearest, .up, .down]
  name
    | .nearest => utf8 "nearest"
    | .up => utf8 "up"
    | .down => utf8 "down"

inductive TagMode where
  | add
  | remove
  | replace
deriving DecidableEq, Repr

instance : Named TagMode where
  all := [.add, .remove, .replace]
  name
    | .add => utf8 "add"
    | .remove => utf8 "remove"
    | .replace => utf8 "replace"

inductive InventoryMode where
  | set
  | increase
  | decrease
deriving DecidableEq, Repr

instance : Named InventoryMode where
  all := [.set, .increase, .decrease]
  name
    | .set => utf8 "set"
    | .increase => utf8 "inc"
    | .decrease => utf8 "dec"

inductive Status where
  | active
  | draft
  | archived
deriving DecidableEq, Repr

instance : Named Status where
  all := [.active, .draft, .archived]
  name
    | .active => utf8 "ACTIVE"
    | .draft => utf8 "DRAFT"
    | .archived => utf8 "ARCHIVED"

/-! ## Changes -/

/-- How a price is rounded after it was changed; prices are rounded to cents unless another
precision is given. -/
structure Rounding where
  precision : Binary64 := Binary64.ofRatio false 1 100
  /-- The final digits, such as `.99`. -/
  endWith : Option Text := none
  mode : RoundingMode := .nearest
deriving DecidableEq

structure PriceChange where
  mode : PriceMode
  value : Binary64
  /-- A currency code of three capitals. -/
  currency : Option Text := none
  rounding : Option Rounding := none
deriving DecidableEq

structure TagChange where
  mode : TagMode
  /-- The tags in the order and case in which they were given. -/
  values : List Text
deriving DecidableEq, Repr

structure InventoryChange where
  mode : InventoryMode
  /-- The quantity; the mode says in which direction it goes. -/
  value : Int
  /-- The name of the place where the stock is kept. -/
  location : Option Text := none
deriving DecidableEq, Repr

inductive MetafieldValue where
  | null
  | text (t : Text)
  | number (x : Binary64)
  | flag (b : Bool)
deriving DecidableEq

structure Metafield where
  ns : Text
  key : Text
  type : Text
  value : Option MetafieldValue := none
deriving DecidableEq

structure Seo where
  title : Option Text := none
  description : Option Text := none
deriving DecidableEq, Repr

inductive Change where
  | price (change : PriceChange)
  | compareAt (change : PriceChange)
  | tags (change : TagChange)
  | inventory (change : InventoryChange)
  | status (status : Status)
  | metafield (field : Metafield)
  | seo (seo : Seo)
deriving DecidableEq

def Change.operation : Change → Operation
  | .price _ => .price
  | .compareAt _ => .compareAt
  | .tags _ => .tags
  | .inventory _ => .inventory
  | .status _ => .status
  | .metafield _ => .metafield
  | .seo _ => .seo

/-! ## Edits -/

structure Edit where
  scope : Scope := .product
  /-- The date and time at which the edit is due. -/
  schedule : Option Text := none
  change : Change
deriving DecidableEq

def Edit.operation (e : Edit) : Operation := e.change.operation

end CatalogEdit
