/-!
# Binary floating-point numbers of 64 bits

A number is its sign and the 63 bits below the sign, read as one natural number. That number
grows with the absolute value: it runs through the subnormal and normal numbers in order, then
comes infinity, then the codes that stand for no number. Every finite absolute value is a whole
multiple of `2 ^ -1074`, so exact statements about finite numbers are statements about natural
numbers of such units. Powers are written with `Nat.pow`, which means the same in every module.

## Main definitions

* `Binary64` — sign and magnitude.
* `Binary64.units` — the absolute value of a finite number, in units of `2 ^ -1074`.
* `Binary64.ofRatio`, `Binary64.ofInt` — the number nearest to a fraction or to an integer; of
  two equally near ones, the one with the even last bit.
* `Binary64.ofRatio?`, `Binary64.ofScientific?` — the same, where a fraction out of range has no
  number, and for a natural number times a power of ten.
* `Binary64.toInt?` — the integer a number is equal to, if there is one.
-/

namespace CatalogEdit

structure Binary64 where
  negative : Bool
  magnitude : Nat
  magnitude_lt : magnitude < Nat.pow 2 63
deriving DecidableEq

namespace Binary64

/-- The magnitude of infinity: the least one that stands for no finite number. -/
abbrev topMagnitude : Nat := 2047 * Nat.pow 2 52

/-! ## Particular numbers -/

def zero : Binary64 := ⟨false, 0, by decide⟩

def one : Binary64 := ⟨false, 1023 * Nat.pow 2 52, by decide⟩

def infinity (negative : Bool) : Binary64 := ⟨negative, topMagnitude, by decide⟩

def nan : Binary64 := ⟨false, topMagnitude + Nat.pow 2 51, by decide⟩

instance : Inhabited Binary64 := ⟨zero⟩

/-! ## Classes and sign -/

def isFinite (x : Binary64) : Bool := x.magnitude < topMagnitude

def isNaN (x : Binary64) : Bool := topMagnitude < x.magnitude

def isZero (x : Binary64) : Bool := x.magnitude == 0

def abs (x : Binary64) : Binary64 := { x with negative := false }

/-- The absolute value of `x` with the given sign; zero is never negative. -/
def signed (negative : Bool) (x : Binary64) : Binary64 :=
  { x with negative := negative && !x.isZero }

/-- All 64 bits, the sign first. -/
def bits (x : Binary64) : Nat := (if x.negative then Nat.pow 2 63 else 0) + x.magnitude

/-! ## Exact values -/

/-- One, in units. It is irreducible so that a proof does not compute it. -/
@[irreducible] def unitsOfOne : Nat := Nat.pow 2 1074

/-- The value of a magnitude in units. Below `2 ^ 53` it is the magnitude itself. Above, the
magnitude holds a significand of 53 bits whose first bit is not written, and the number of
places it is shifted by. -/
def unitsOf (magnitude : Nat) : Nat :=
  let shift := magnitude / Nat.pow 2 52 - 1
  (magnitude - shift * Nat.pow 2 52) * Nat.pow 2 shift

def units (x : Binary64) : Nat := unitsOf x.magnitude

/-- The integer `x` is equal to. -/
def toInt? (x : Binary64) : Option Int :=
  if x.isFinite && x.units % unitsOfOne == 0 then
    let n : Int := (x.units / unitsOfOne : Nat)
    some (if x.negative then -n else n)
  else
    none

/-! ## Rounding -/

/-- The natural number nearest to `num / den`; a half goes to the even neighbour. -/
def roundEven (num den : Nat) : Nat :=
  let below := num / den
  let twice := 2 * (num % den)
  if twice < den || (twice == den && below % 2 == 0) then below else below + 1

/-- The magnitude nearest to `num / den`, in a range of exponents without an upper end. A value
of more than 53 bits above the unit loses the bits beyond them. -/
def magnitudeOfRatio (num den : Nat) : Nat :=
  let num := num * unitsOfOne
  let shift := Nat.log2 (num / den) - 52
  shift * Nat.pow 2 52 + roundEven num (den * Nat.pow 2 shift)

/-- The number nearest to `num / den`; infinity from `2 ^ 1024` on. -/
def ofRatio (negative : Bool) (num den : Nat) : Binary64 :=
  ⟨negative, min (magnitudeOfRatio num den) topMagnitude,
    Nat.lt_of_le_of_lt (Nat.min_le_right _ _) (by decide)⟩

def ofInt (n : Int) : Binary64 := ofRatio (n < 0) n.natAbs 1

/-! ## Range -/

def overflows (num den : Nat) : Bool := topMagnitude ≤ magnitudeOfRatio num den

/-- Whether `num / den` is too small to be written without loss: it is not a whole number of
units, and rounding it to 53 bits leaves it below `2 ^ 52` units, which is so exactly when it is
more than a quarter of a unit below them. -/
def underflows (num den : Nat) : Bool :=
  num * unitsOfOne % den != 0 && 4 * (num * unitsOfOne) < (Nat.pow 2 54 - 1) * den

/-- The number nearest to `num / den`, unless that fraction is out of range. -/
def ofRatio? (negative : Bool) (num den : Nat) : Option Binary64 :=
  if overflows num den || underflows num den then none else some (ofRatio negative num den)

/-- The number nearest to `coefficient * 10 ^ exponent`, unless that is `2 ^ 1024` or more. An
exponent far beyond the range is decided by itself, so that no large power is ever computed. -/
def ofScientific? (negative : Bool) (coefficient : Nat) : Int → Option Binary64
  | .ofNat exponent =>
    if coefficient == 0 then
      some { zero with negative }
    else if 309 ≤ exponent || overflows (coefficient * Nat.pow 10 exponent) 1 then
      none
    else
      some (ofRatio negative (coefficient * Nat.pow 10 exponent) 1)
  | .negSucc k =>
    if Nat.log2 coefficient + 1100 ≤ 3 * (k + 1) then
      some { zero with negative }
    else if overflows coefficient (Nat.pow 10 (k + 1)) then
      none
    else
      some (ofRatio negative coefficient (Nat.pow 10 (k + 1)))

end Binary64

end CatalogEdit
