import CatalogEdit.Number.Binary64
import CatalogEdit.Text.Basic

/-!
# Selections

Which items of the catalogue an edit is applied to. Every condition has to hold; within a list
of alternatives one is enough. A condition that is absent, or a list without entries, lets
every item through.

## Main definitions

* `Selection` — the conditions.
* `Selection.isEmpty` — no condition at all.
-/

namespace CatalogEdit

structure Requirements where
  vendors : List Text := []
  types : List Text := []
  collections : List Text := []
  tags : List Text := []
deriving DecidableEq, Repr

structure Exclusions where
  tags : List Text := []
deriving DecidableEq, Repr

structure Bounds where
  priceAtLeast : Option Binary64 := none
  priceAtMost : Option Binary64 := none
  inventoryEquals : Option Binary64 := none
deriving DecidableEq

structure Selection where
  must : Requirements := {}
  mustNot : Exclusions := {}
  titleContains : Option Text := none
  numeric : Bounds := {}
deriving DecidableEq

def Requirements.isEmpty (r : Requirements) : Bool :=
  r.vendors.isEmpty && r.types.isEmpty && r.collections.isEmpty && r.tags.isEmpty

def Bounds.isEmpty (b : Bounds) : Bool :=
  b.priceAtLeast.isNone && b.priceAtMost.isNone && b.inventoryEquals.isNone

def Selection.isEmpty (s : Selection) : Bool :=
  s.must.isEmpty && s.mustNot.tags.isEmpty && s.titleContains.isNone && s.numeric.isEmpty

end CatalogEdit
