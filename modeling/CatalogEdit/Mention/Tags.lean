import CatalogEdit.Mention.Phrase
import CatalogEdit.Text.Quoted

/-!
# Tags in a request

Tags are written in quotes, or after the word `tag` or `tags` with commas or ampersands between
them. Quoted tags win: a request with one is not searched for others.

## Main definitions

* `Mention.quotedTags` — the quoted literals that are not blank, trimmed.
* `Mention.listedTags` — the entries between the first and the second word `tag` or `tags`.
* `Mention.tags` — the tags of a request.
-/

namespace CatalogEdit.Mention

def quotedTags (t : Text) : List Text :=
  (Text.occurrences Text.quotedLiteral t).filterMap Text.label?

/-- The word `tag` or `tags` as a word of its own, in the narrow sense of `Byte.isAsciiWord`. -/
def tagWord : Matcher Unit := fun before t =>
  if isAsciiEdge before then
    ((["tags", "tag"].map utf8).find? fun k =>
      Text.startsWith k t && isAsciiEdge (t.drop k.length).head?).map fun k => ((), k.length)
  else
    none

/-- What stands after the first word `tag` or `tags`, up to the next one. -/
def tagSegment? (t : Text) : Option Text := (Text.stretches tagWord t)[1]?

def isTagSeparator (b : UInt8) : Bool := b == Byte.comma || b == Byte.ampersand

def listedTags (t : Text) : List Text :=
  match tagSegment? t with
  | none => []
  | some segment => (segment.splitOnP isTagSeparator).filterMap Text.label?

def tags (t : Text) : List Text :=
  if (quotedTags t).isEmpty then listedTags t else quotedTags t

end CatalogEdit.Mention
