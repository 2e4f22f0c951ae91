import CatalogEdit.Text.Scan

/-!
# Quoted literals

A quoted literal is a non-empty run of bytes between two equal quote marks, double or single,
that holds no such mark itself. A mark with nothing between it and the next one opens no
literal.

## Main definitions

* `Text.quotedLiteral` — the matcher for one literal; its value is what stands between the
  marks.
-/

namespace CatalogEdit.Text

def isQuoteMark (b : UInt8) : Bool := b == Byte.quote || b == Byte.apostrophe

/-- What stands before the next `mark`, unless that is nothing or there is no such mark. -/
def quotedBody? (mark : UInt8) (t : Text) : Option Text :=
  let body := t.takeWhile (· != mark)
  if body.isEmpty || (t.drop body.length).isEmpty then none else some body

def quotedLiteral : Matcher Text
  | _, [] => none
  | _, mark :: rest =>
    if isQuoteMark mark then
      (quotedBody? mark rest).map fun body => (body, body.length + 2)
    else
      none

end CatalogEdit.Text
