import CatalogEdit.Json.Basic
import CatalogEdit.Number.Shortest
import CatalogEdit.Text.Utf8

/-!
# Writing JSON texts

Values are written over several lines, with two spaces for every level, as they stand: fields
keep their order. Control characters, quotes and backslashes are escaped, all other characters
stand for themselves, and a byte that belongs to no character is replaced.

## Main definitions

* `Json.Layout`, `Json.decimal` — how a floating-point number is written.
* `Json.quote` — how a string is written.
* `Json.render` — how a value is written.
-/

namespace CatalogEdit.Json

/-! ## Numbers -/

/-- Where positional notation is used: for a point that stands after more than `leastPoint` and
at most `mostPoint` digits. -/
structure Layout where
  leastPoint : Int
  mostPoint : Int

/-- Numbers from a ten-thousandth up to fifteen digits are written without an exponent. -/
def layout : Layout := ⟨-4, 15⟩

def zeros (n : Nat) : Text := List.replicate n 0x30

/-- An exponent has a sign and at least two digits. -/
def exponentText (e : Int) : Text :=
  (if e < 0 then utf8 "e-" else utf8 "e+") ++ (if e.natAbs < 10 then zeros 1 else []) ++
    Text.decimal e.natAbs

/-- The number `0.digits * 10 ^ point`; a whole one keeps `.0`. -/
def positioned (digits : Text) (point : Int) : Text :=
  if layout.leastPoint < point && point ≤ 0 then
    utf8 "0." ++ zeros (-point).toNat ++ digits
  else if 0 < point && point ≤ layout.mostPoint then
    let whole := digits.take point.toNat
    let fraction := digits.drop point.toNat
    whole ++ zeros (point.toNat - whole.length) ++ utf8 "." ++
      (if fraction.isEmpty then zeros 1 else fraction)
  else
    digits.take 1 ++ (if digits.length ≤ 1 then [] else utf8 "." ++ digits.drop 1) ++
      exponentText (point - 1)

/-- A number that is not finite has no JSON form, and is written as null. -/
def decimal (x : Binary64) : Text :=
  if !x.isFinite then
    utf8 "null"
  else
    (if x.negative then [Byte.minus] else []) ++
      if x.isZero then
        utf8 "0.0"
      else
        let (coefficient, exponent) := x.shortest
        let digits := Text.decimal coefficient
        positioned digits (exponent + digits.length)

/-! ## Strings -/

def hexDigit (n : Nat) : UInt8 := (if n < 10 then 0x30 + n else 0x57 + n : Nat).toUInt8

def escape (b : UInt8) : Text :=
  match [(Byte.quote, Byte.quote), (Byte.backslash, Byte.backslash), (0x08, 0x62), (0x0C, 0x66),
    (0x0A, 0x6E), (0x0D, 0x72), (0x09, 0x74)].lookup b with
  | some letter => [Byte.backslash, letter]
  | none =>
    if b < 0x20 then
      utf8 "\\u00" ++ [hexDigit (b.toNat / 16), hexDigit (b.toNat % 16)]
    else
      [b]

def quote (t : Text) : Text :=
  [Byte.quote] ++ (Utf8.repair t).flatMap escape ++ [Byte.quote]

/-! ## Values -/

def newline (level : Nat) : Text := utf8 "\n" ++ List.replicate (2 * level) Byte.space

mutual

/-- The text of a value; lines after the first are indented for `level`. -/
def render (level : Nat) : Json → Text
  | .null => utf8 "null"
  | .bool b => if b then utf8 "true" else utf8 "false"
  | .integer n => (if n < 0 then [Byte.minus] else []) ++ Text.decimal n.natAbs
  | .number x => decimal x
  | .string t => quote t
  | .array [] => utf8 "[]"
  | .array (item :: items) =>
    utf8 "[" ++ newline (level + 1) ++ render (level + 1) item ++
      renderItems (level + 1) items ++ newline level ++ utf8 "]"
  | .object [] => utf8 "\x7b\x7d"
  | .object ((key, value) :: fields) =>
    utf8 "\x7b" ++ newline (level + 1) ++ quote key ++ utf8 ": " ++ render (level + 1) value ++
      renderFields (level + 1) fields ++ newline level ++ utf8 "\x7d"

/-- The items after the first, each after a comma. -/
def renderItems (level : Nat) : List Json → Text
  | [] => []
  | item :: items =>
    utf8 "," ++ newline level ++ render level item ++ renderItems level items

/-- The fields after the first, each after a comma. -/
def renderFields (level : Nat) : List (Text × Json) → Text
  | [] => []
  | (key, value) :: fields =>
    utf8 "," ++ newline level ++ quote key ++ utf8 ": " ++ render level value ++
      renderFields level fields

end

end CatalogEdit.Json
