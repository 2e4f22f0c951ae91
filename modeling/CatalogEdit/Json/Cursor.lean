import CatalogEdit.Json.Basic
import CatalogEdit.Named
import CatalogEdit.Path

/-!
# Reading typed values from JSON

A cursor is a JSON value together with its place in a larger one, so that every complaint can
name the place. The functions here read one value, or one field of an object.

## Main definitions

* `Json.Mismatch` — what is wrong with a value, and where.
* `Json.Cursor`, `Json.Fields` — a value and the fields of an object, with their places.
* `Json.Fields.required`, `Json.Fields.optional`, `Json.Fields.ifPresent` — the three ways to
  read a field: it must be there; it may be absent or null; it may be absent.
-/

namespace CatalogEdit.Json

/-! ## Complaints -/

inductive Expectation where
  | required
  | object
  | string
  | number
  | integer
  | array
  | arrayOfStrings
  | metafieldValue
  | notNamed (given : Text)
deriving DecidableEq, Repr

def Expectation.text : Expectation → Text
  | .required => utf8 "required"
  | .object => utf8 "expected object"
  | .string => utf8 "expected string"
  | .number => utf8 "expected number"
  | .integer => utf8 "expected integer"
  | .array => utf8 "expected array"
  | .arrayOfStrings => utf8 "expected array of strings"
  | .metafieldValue => utf8 "expected string, number, boolean or null"
  | .notNamed given => utf8 "invalid value '" ++ given ++ utf8 "'"

structure Mismatch where
  path : Path
  expectation : Expectation
deriving DecidableEq, Repr

def Mismatch.message (m : Mismatch) : Text :=
  (m.path.render ++ utf8 ": " ++ m.expectation.text).untilNul

/-! ## Values -/

structure Cursor where
  path : Path
  value : Json

structure Fields where
  path : Path
  entries : List (Text × Json)

namespace Cursor

def mismatch {α : Type} (c : Cursor) (e : Expectation) : Except Mismatch α := .error ⟨c.path, e⟩

def object (c : Cursor) : Except Mismatch Fields :=
  match c.value with
  | .object entries => .ok ⟨c.path, entries⟩
  | _ => c.mismatch .object

def text (c : Cursor) : Except Mismatch Text :=
  match c.value with
  | .string t => .ok t
  | _ => c.mismatch .string

def number (c : Cursor) : Except Mismatch Binary64 :=
  match c.value.toBinary64? with
  | some x => .ok x
  | none => c.mismatch .number

/-- The member of a vocabulary that has the given name. -/
def named {α : Type} [Named α] (c : Cursor) : Except Mismatch α := do
  let t ← c.text
  match Named.ofName? t with
  | some a => .ok a
  | none => c.mismatch (.notNamed t)

def texts (c : Cursor) : Except Mismatch (List Text) :=
  match c.value with
  | .array items =>
    match items.mapM toText? with
    | some ts => .ok ts
    | none => c.mismatch .arrayOfStrings
  | _ => c.mismatch .array

end Cursor

/-! ## Fields of an object -/

namespace Fields

variable {α : Type}

def get? (f : Fields) (name : String) : Option Cursor :=
  (f.entries.lookup (utf8 name)).map fun v => ⟨f.path.field name, v⟩

/-- A field that has to be there. -/
def required (f : Fields) (name : String) (read : Cursor → Except Mismatch α) :
    Except Mismatch α :=
  match f.get? name with
  | some c => read c
  | none => .error ⟨f.path.field name, .required⟩

/-- A field that may be absent. -/
def ifPresent (f : Fields) (name : String) (absent : α) (read : Cursor → Except Mismatch α) :
    Except Mismatch α :=
  match f.get? name with
  | some c => read c
  | none => .ok absent

/-- A field that may be absent or null. -/
def optional (f : Fields) (name : String) (read : Cursor → Except Mismatch α) :
    Except Mismatch (Option α) :=
  match f.get? name with
  | none => .ok none
  | some ⟨_, .null⟩ => .ok none
  | some c => (read c).map some

end Fields

end CatalogEdit.Json
