import CatalogEdit.Number.Binary64

/-!
# Shortest decimal digits

The fewest decimal digits that are read back as a given floating-point number, and among those
of that length the nearest to it. Reading goes to the nearest number, and to the even one in
the middle between two; so the decimals that are read back form an interval, with its ends if
the number is even.

## Main definitions

* `Binary64.readsBack` — whether a decimal lies in the interval of a number.
* `Binary64.shortest` — the digits, as a natural number, and the power of ten they count.
-/

namespace CatalogEdit.Binary64

/-- Numerator and denominator of `coefficient * 10 ^ exponent` in units. -/
def decimalUnits (coefficient : Nat) : Int → Nat × Nat
  | .ofNat e => (coefficient * Nat.pow 10 e * unitsOfOne, 1)
  | .negSucc k => (coefficient * unitsOfOne, Nat.pow 10 (k + 1))

/-- Whether `coefficient * 10 ^ exponent` is read as the number of the given magnitude. -/
def readsBack (magnitude coefficient : Nat) (exponent : Int) : Bool :=
  let (num, den) := decimalUnits coefficient exponent
  let low := (unitsOf (magnitude - 1) + unitsOf magnitude) * den
  let high := (unitsOf magnitude + unitsOf (magnitude + 1)) * den
  if magnitude % 2 == 0 then low ≤ 2 * num && 2 * num ≤ high
  else low < 2 * num && 2 * num < high

/-- The power of ten of the first digit of a magnitude that is not zero. -/
def leadingExponent (magnitude : Nat) : Int :=
  let u := unitsOf magnitude
  if unitsOfOne ≤ u then
    ((List.range 310).countP fun e => Nat.pow 10 (e + 1) * unitsOfOne ≤ u : Nat)
  else
    -((List.range 330).countP fun k => u * Nat.pow 10 k < unitsOfOne : Nat)

/-- The nearer of the two multiples of `10 ^ exponent` around a magnitude that is read back. -/
def onGrid? (magnitude : Nat) (exponent : Int) : Option Nat :=
  let (num, den) := decimalUnits 1 exponent
  let below := unitsOf magnitude * den / num
  let nearest := roundEven (unitsOf magnitude * den) num
  [nearest, below, below + 1].find? fun c => readsBack magnitude c exponent

/-- Seventeen digits are always enough. -/
def shortest (x : Binary64) : Nat × Int :=
  let first := leadingExponent x.magnitude
  let grids := (List.range 17).map fun (n : Nat) => first - (n : Int)
  (grids.findSome? fun e => (onGrid? x.magnitude e).map fun c => (c, e)).getD (0, 0)

end CatalogEdit.Binary64
