import CatalogEdit.Json.Token

/-!
# Reading JSON texts

The tokens are taken one by one, with the containers that are still open kept beside. Reading
therefore ends with the tokens, however deep the containers are nested.

## Main definitions

* `Json.Fault` — why a text has no value, and the reader's own words for that.
* `Json.Reader` — what may come next, and the open containers.
* `Json.Reader.take?` — the next token.
* `Json.read`, `Json.parse` — the value of a whole text, or the fault that comes first, or only the
  position of that fault.
-/

namespace CatalogEdit.Json

/-! ## Faults -/

inductive Fault where
  /-- From this position on, the text is no JSON. -/
  | malformed (position : Nat)
  /-- The number at this position is beyond the range of floating-point numbers. -/
  | outOfRange (position : Nat) (literal : Text)
deriving DecidableEq, Repr

namespace Fault

def position : Fault → Nat
  | .malformed position => position
  | .outOfRange position _ => position

/-- The reader's own account of the fault. What would have been expected where the text is malformed
is left out. -/
def message : Fault → Text
  | .malformed position =>
    utf8 "[json.exception.parse_error.101] parse error at byte " ++ Text.decimal position
  | .outOfRange _ literal =>
    utf8 "[json.exception.out_of_range.406] number overflow parsing '" ++ literal ++ utf8 "'"

end Fault

/-! ## The reader -/

/-- A container that is still open, with what it holds so far; the items of an array are kept
in reverse, and an object waits for the value of its last key. -/
inductive Frame where
  | array (reversed : List Json)
  | object (fields : List (Text × Json)) (key : Text)

/-- The state of a reader; `outer` holds the open containers, the innermost first. -/
inductive Reader where
  | value (outer : List Frame)
  | firstItem (outer : List Frame)
  | firstKey (outer : List Frame)
  | key (fields : List (Text × Json)) (outer : List Frame)
  | colon (fields : List (Text × Json)) (key : Text) (outer : List Frame)
  | done (v : Json) (outer : List Frame)

namespace Reader

/-- The token that begins a value. -/
def beginValue? (outer : List Frame) : Token → Option Reader
  | .openObject => some (.firstKey outer)
  | .openArray => some (.firstItem outer)
  | .string t => some (.done (.string t) outer)
  | .scalar v => some (.done v outer)
  | _ => none

/-- The token after a value inside a container. -/
def endValue? (v : Json) : List Frame → Token → Option Reader
  | .array reversed :: outer, .comma => some (.value (.array (v :: reversed) :: outer))
  | .array reversed :: outer, .closeArray => some (.done (.array (v :: reversed).reverse) outer)
  | .object fields k :: outer, .comma => some (.key (setField k v fields) outer)
  | .object fields k :: outer, .closeObject => some (.done (.object (setField k v fields)) outer)
  | _, _ => none

def take? : Reader → Token → Option Reader
  | .value outer, token => beginValue? outer token
  | .firstItem outer, .closeArray => some (.done (.array []) outer)
  | .firstItem outer, token => beginValue? (.array [] :: outer) token
  | .firstKey outer, .closeObject => some (.done (.object []) outer)
  | .firstKey outer, .string k => some (.colon [] k outer)
  | .key fields outer, .string k => some (.colon fields k outer)
  | .colon fields k outer, .colon => some (.value (.object fields k :: outer))
  | .done v outer, token => endValue? v outer token
  | _, _ => none

/-- Whether a value may begin here. -/
def awaitsValue : Reader → Bool
  | .value _ | .firstItem _ => true
  | _ => false

/-- What is wrong with a token that is not taken. Where no value may begin, a number is out of
place, whatever its range. -/
def refusal (reader : Reader) (position : Nat) : Token → Fault
  | .outOfRange literal =>
    if reader.awaitsValue then .outOfRange position literal else .malformed position
  | _ => .malformed position

/-- The value of the tokens; `last` is the position after the text. -/
def run (last : Nat) : Reader → List (Token × Nat) → Except Fault Json
  | .done v [], [] => .ok v
  | _, [] => .error (.malformed last)
  | reader, (token, position) :: rest =>
    match reader.take? token with
    | some next => run last next rest
    | none => .error (reader.refusal position token)

end Reader

/-! ## Whole texts -/

def read (t : Text) : Except Fault Json :=
  Reader.run (t.length + 1) (.value []) (Token.ofText t)

def parse (t : Text) : Except Nat Json := (read t).mapError Fault.position

end CatalogEdit.Json
