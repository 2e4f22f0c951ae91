import CatalogEdit.Number.Binary64
import CatalogEdit.Text.Scan

/-!
# Numerals

A numeral is what a shopkeeper writes for a number: an optional minus, digits, and optionally
a point with digits after it. A numeral takes all the digits it can.

## Main definitions

* `Numeral.read?` — the numeral at the head of a text.
* `Numeral.text`, `Numeral.width` — how it is written.
* `Numeral.value?` — its value as a floating-point number, unless that is out of range.
-/

namespace CatalogEdit

structure Numeral where
  negative : Bool
  /-- The digits before the point. -/
  whole : Text
  /-- The digits after the point; none if there is no point. -/
  fraction : Text
deriving DecidableEq, Repr

namespace Numeral

/-- The digits after a point, if the text begins with a point and a digit. -/
def readFraction : Text → Text
  | Byte.dot :: rest => rest.takeWhile Byte.isDigit
  | _ => []

/-- The text without a minus at its head. -/
def dropSign : Text → Text
  | Byte.minus :: rest => rest
  | t => t

/-- The numeral at the head of `t`. -/
def read? (t : Text) : Option Numeral :=
  let unsigned := dropSign t
  let whole := unsigned.takeWhile Byte.isDigit
  if whole.isEmpty then
    none
  else
    some ⟨t.head? == some Byte.minus, whole, readFraction (unsigned.drop whole.length)⟩

def text (n : Numeral) : Text :=
  (if n.negative then [Byte.minus] else []) ++ n.whole ++
    (if n.fraction.isEmpty then [] else Byte.dot :: n.fraction)

def width (n : Numeral) : Nat := n.text.length

/-! ## Value -/

/-- The absolute value is `numerator / denominator`. -/
def numerator (n : Numeral) : Nat := Text.digitsValue (n.whole ++ n.fraction)

def denominator (n : Numeral) : Nat := Nat.pow 10 n.fraction.length

def value? (n : Numeral) : Option Binary64 :=
  Binary64.ofRatio? n.negative n.numerator n.denominator

end Numeral

end CatalogEdit
