import CatalogEdit.Text.Basic

/-!
# Paths to fields

Where in a nested value a field or an entry stands, and how such a place is written.

## Main definitions

* `Path` — the steps from the whole value inwards.
* `Path.render` — names joined by dots, indices in brackets.
-/

namespace CatalogEdit

inductive PathStep where
  | field (name : Text)
  | item (index : Nat)
deriving DecidableEq, Repr

abbrev Path := List PathStep

namespace Path

def ofField (name : String) : Path := [.field (utf8 name)]

def field (p : Path) (name : String) : Path := p ++ [.field (utf8 name)]

def item (p : Path) (index : Nat) : Path := p ++ [.item index]

def renderStep : PathStep → Text
  | .field name => Byte.dot :: name
  | .item index => [Byte.openBracket] ++ Text.decimal index ++ [Byte.closeBracket]

/-- The first step has no dot before it. -/
def render : Path → Text
  | [] => []
  | .field name :: steps => name ++ steps.flatMap renderStep
  | .item index :: steps => renderStep (.item index) ++ steps.flatMap renderStep

end Path

end CatalogEdit
