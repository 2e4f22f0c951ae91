import CatalogEdit.Text.Scan

/-!
# Keywords in a text

Keywords are compared without regard to the case of ASCII letters. A word edge is a place
with no byte of `Byte.isWord` on the other side, so that a character outside ASCII counts as
part of a word.

## Main definitions

* `Text.hasWordStart` — a keyword begins some word of the text.
* `Text.occurs` — a keyword stands anywhere in the text.
* `Text.removeWord` — a space for every occurrence of a word or phrase that stands alone.
-/

namespace CatalogEdit.Text

/-- Whether a word may start or end beside `neighbour`, the byte next to it if there is one. -/
def isWordEdge (neighbour : Option UInt8) : Bool := neighbour.all fun b => !Byte.isWord b

/-! ## Finding keywords -/

/-- Whether some word of `t` begins with `keyword`. -/
def hasWordStart (keyword t : Text) : Bool :=
  !keyword.isEmpty &&
    (search (fun before rest =>
      if isWordEdge before && startsWith keyword rest then some () else none) t).isSome

/-- Whether `keyword` stands anywhere in `t`, even inside a word. -/
def occurs (keyword t : Text) : Bool :=
  !keyword.isEmpty &&
    (search (fun _ rest => if startsWith keyword rest then some () else none) t).isSome

def hasAnyWordStart (keywords : List Text) (t : Text) : Bool :=
  keywords.any fun k => hasWordStart k t

def anyOccurs (keywords : List Text) (t : Text) : Bool := keywords.any fun k => occurs k t

/-! ## Removing words -/

/-- The word or phrase `word`, with a word edge on either side. -/
def standalone (word : Text) : Matcher Unit := fun before rest =>
  if isWordEdge before && startsWith word rest && isWordEdge (rest.drop word.length).head? then
    some ((), word.length)
  else
    none

/-- A space for every occurrence of `word` that stands alone. The space itself is an edge for
what follows it. -/
def removeWord (word t : Text) : Text := blankOut (standalone word) t

/-- Remove one word or phrase after the other. -/
def removeWords (words : List Text) (t : Text) : Text :=
  words.foldl (fun t word => removeWord word t) t

end CatalogEdit.Text
