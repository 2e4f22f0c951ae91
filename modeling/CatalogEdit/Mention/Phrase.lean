import CatalogEdit.Text.Word

/-!
# Phrases after a preposition

The words after `in`, `at`, `of`, `on` or `for` name a place or say which items are meant. A
preposition stands at the start of a word in the narrow sense of `Byte.isAsciiWord`, and blanks
follow it; the phrase is the longest run of bytes of a class that includes the blanks.

## Main definitions

* `Mention.phraseAfter?` — the phrase that follows a preposition.
* `Mention.filterTerm?` — the first phrase that ends at a punctuation mark.
* `Mention.location?` — the first phrase of letters, digits, underscores, hyphens and blanks
  after a preposition of place.
-/

namespace CatalogEdit.Mention

/-- Whether a keyword may start here, given the byte before. -/
def isAsciiEdge (neighbour : Option UInt8) : Bool := neighbour.all fun b => !Byte.isAsciiWord b

/-- What follows the first of `keywords` that stands at the head of `t`. -/
def afterKeyword? (keywords : List Text) (t : Text) : Option Text :=
  (keywords.find? fun k => Text.startsWith k t).map fun k => t.drop k.length

/-- The phrase at the head of `t`, which begins with blanks: the longest run of bytes of
`inClass` after them. If no such byte comes after two or more blanks, the last blank itself is
the phrase, and nothing is left of it once it is trimmed. -/
def phraseAfter? (inClass : UInt8 → Bool) (t : Text) : Option Text :=
  let rest := Text.trimStart t
  let blanks := t.length - rest.length
  if blanks == 0 then
    none
  else if rest.head?.any inClass then
    some (rest.takeWhile inClass)
  else if 2 ≤ blanks then
    some []
  else
    none

/-! ## Filter terms -/

def termKeywords : List Text := ["for", "of", "on", "in"].map utf8

/-- The bytes of a filter term: all but the marks that end a clause. -/
def isTermByte (b : UInt8) : Bool :=
  !(b == Byte.dot || b == Byte.comma || b == Byte.semicolon || b == Byte.exclamation ||
    b == Byte.question)

def filterTermAt? (before : Option UInt8) (t : Text) : Option Text :=
  if isAsciiEdge before then
    (afterKeyword? termKeywords t).bind (phraseAfter? isTermByte)
  else
    none

def filterTerm? (t : Text) : Option Text := (Text.search filterTermAt? t).bind Text.label?

/-! ## Locations -/

def placeKeyword : Text := utf8 "location"

def placeKeywords : List Text := placeKeyword :: ["at", "in"].map utf8

def isLocationByte (b : UInt8) : Bool :=
  Byte.isAsciiWord b || Byte.isBlank b || b == Byte.minus

/-- The name of a place in what follows a preposition. The word `location` between them
belongs to the preposition if a name can be read after it. -/
def placeName? (t : Text) : Option Text :=
  let named :=
    if t.head?.any Byte.isBlank then
      (afterKeyword? [placeKeyword] (Text.trimStart t)).bind (phraseAfter? isLocationByte)
    else
      none
  named.or (phraseAfter? isLocationByte t)

def locationAt? (before : Option UInt8) (t : Text) : Option Text :=
  if isAsciiEdge before then (afterKeyword? placeKeywords t).bind placeName? else none

def location? (t : Text) : Option Text := (Text.search locationAt? t).bind Text.label?

end CatalogEdit.Mention
