import CatalogEdit.Number.Binary64
import CatalogEdit.Text.Basic

/-!
# JSON values

A number without fraction and exponent is an integer of any size; every other number is the
nearest floating-point number. An object is a list of fields with distinct names.

## Main definitions

* `Json` — the values.
* `Json.Kind`, `Json.kind` — what sort of value it is.
* `Json.toBinary64?` — a number of either sort as a floating-point number.
-/

namespace CatalogEdit

inductive Json where
  | null
  | bool (b : Bool)
  | integer (n : Int)
  | number (x : Binary64)
  | string (t : Text)
  | array (items : List Json)
  | object (fields : List (Text × Json))

namespace Json

instance : Inhabited Json := ⟨.null⟩

inductive Kind where
  | null
  | boolean
  | number
  | string
  | array
  | object
deriving DecidableEq, Repr

def Kind.name : Kind → Text
  | .null => utf8 "null"
  | .boolean => utf8 "boolean"
  | .number => utf8 "number"
  | .string => utf8 "string"
  | .array => utf8 "array"
  | .object => utf8 "object"

def kind : Json → Kind
  | .null => .null
  | .bool _ => .boolean
  | .integer _ => .number
  | .number _ => .number
  | .string _ => .string
  | .array _ => .array
  | .object _ => .object

def toBinary64? : Json → Option Binary64
  | .integer n => some (Binary64.ofInt n)
  | .number x => some x
  | _ => none

def toText? : Json → Option Text
  | .string t => some t
  | _ => none

/-! ## Objects -/

/-- Set the field `key`; a field of that name is replaced in its place. -/
def setField (key : Text) (value : Json) : List (Text × Json) → List (Text × Json)
  | [] => [(key, value)]
  | (k, v) :: fields =>
    if k == key then (k, value) :: fields else (k, v) :: setField key value fields

/-- The field `name` of an object that is there only if `value` is. -/
def fieldOfOption {α : Type} (name : String) (encode : α → Json) :
    Option α → List (Text × Json)
  | none => []
  | some a => [(utf8 name, encode a)]

end Json

end CatalogEdit
