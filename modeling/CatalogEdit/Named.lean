import CatalogEdit.Text.Basic

/-!
# Finite vocabularies with wire names

The choices of the wire format — modes, scopes, states and codes — are finite types whose
members are written by name.

## Main definitions

* `Named` — all members of a type in order, and the name of each.
* `Named.ofName?` — the member of a given name; names are compared byte by byte.
* `Named.position` — the place of a member in the order, from zero.
-/

namespace CatalogEdit

class Named (α : Type) where
  all : List α
  name : α → Text

namespace Named

variable {α : Type} [Named α]

def ofName? (t : Text) : Option α := all.find? fun a => name a == t

def position [BEq α] (a : α) : Nat := all.idxOf a

end Named

end CatalogEdit
