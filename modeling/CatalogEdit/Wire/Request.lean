import CatalogEdit.Json.Basic
import CatalogEdit.Planning

/-!
# Requests from JSON

A request body is an object with a non-empty text and, possibly, a locale. All fields that are
wrong are reported at once, the text before the locale.

## Main definitions

* `Request.decode` — the request written by a JSON value.
* `RequestError` — what is wrong with a body.
-/

namespace CatalogEdit

open Json

inductive FieldFault where
  | textMissing
  | textNotString (kind : Kind)
  | textEmpty
  | localeNotString (kind : Kind)
deriving DecidableEq, Repr

def FieldFault.message : FieldFault → Text
  | .textMissing => utf8 "text: Required"
  | .textNotString kind => utf8 "text: Expected string, received " ++ kind.name
  | .textEmpty => utf8 "text: String must contain at least 1 character(s)"
  | .localeNotString kind => utf8 "locale: Expected string, received " ++ kind.name

inductive RequestError where
  | notObject (kind : Kind)
  | fields (faults : List FieldFault)
deriving DecidableEq, Repr

def RequestError.message : RequestError → Text
  | .notObject kind => utf8 "body: Expected object, received " ++ kind.name
  | .fields faults => (utf8 "; ").intercalate (faults.map FieldFault.message)

namespace Request

/-- The text of a request, or what is wrong with it. -/
def readText : Option Json → Except FieldFault Text
  | none => .error .textMissing
  | some (.string t) => if t.isEmpty then .error .textEmpty else .ok t
  | some j => .error (.textNotString j.kind)

/-- The locale of a request, or what is wrong with it; null is not a locale. -/
def readLocale : Option Json → Except FieldFault (Option Text)
  | none => .ok none
  | some (.string t) => .ok (some t)
  | some j => .error (.localeNotString j.kind)

def decode : Json → Except RequestError Request
  | .object fields =>
    match readText (fields.lookup (utf8 "text")), readLocale (fields.lookup (utf8 "locale")) with
    | .ok text, .ok locale => .ok { text, locale }
    | .error textFault, .error localeFault => .error (.fields [textFault, localeFault])
    | .error textFault, .ok _ => .error (.fields [textFault])
    | .ok _, .error localeFault => .error (.fields [localeFault])
  | j => .error (.notObject j.kind)

end Request

end CatalogEdit
