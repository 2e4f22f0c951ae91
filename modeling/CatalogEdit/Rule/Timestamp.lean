import CatalogEdit.Text.Basic

/-!
# Dates with time and offset

A timestamp is a date, a time of day and an offset from universal time, such as
`2025-01-31T08:30:00.5+01:00`. Seconds may be missing, and only after them may a fraction of any
length follow. Fields are checked one by one: the day may be up to 31 in every month.

## Main definitions

* `Timestamp.isTimestamp` — whether a text is a timestamp as a whole.
-/

namespace CatalogEdit.Timestamp

/-! ## Fields

Each of these reads one part at the head of a text and answers what follows it. -/

/-- A field of exactly `width` digits whose value lies between `low` and `high`. -/
def afterField? (width low high : Nat) (t : Text) : Option Text :=
  let digits := t.take width
  if digits.length == width && digits.all Byte.isDigit &&
      low ≤ Text.digitsValue digits && Text.digitsValue digits ≤ high then
    some (t.drop width)
  else
    none

def afterByte? (b : UInt8) : Text → Option Text
  | [] => none
  | c :: rest => if c == b then some rest else none

/-- Hours and minutes with a colon between them. -/
def afterClock? (t : Text) : Option Text :=
  (afterField? 2 0 23 t).bind fun t =>
    (afterByte? Byte.colon t).bind (afterField? 2 0 59)

def afterDate? (t : Text) : Option Text :=
  (afterField? 4 0 9999 t).bind fun t =>
    (afterByte? Byte.minus t).bind fun t =>
      (afterField? 2 1 12 t).bind fun t =>
        (afterByte? Byte.minus t).bind (afterField? 2 1 31)

/-- A point and at least one digit, if a point comes next. -/
def afterFraction? : Text → Option Text
  | Byte.dot :: rest =>
    if rest.head?.any Byte.isDigit then some (rest.dropWhile Byte.isDigit) else none
  | t => some t

/-- A colon, seconds and possibly a fraction, if a colon comes next. -/
def afterSeconds? : Text → Option Text
  | Byte.colon :: rest => (afterField? 2 0 59 rest).bind afterFraction?
  | t => some t

/-! ## Whole timestamps -/

/-- The letter Z, or a sign with hours and minutes, and nothing after it. -/
def isOffset (t : Text) : Bool :=
  match t with
  | b :: rest =>
    if b == Byte.plus || b == Byte.minus then afterClock? rest == some [] else t == utf8 "Z"
  | [] => false

def isTimestamp (t : Text) : Bool :=
  match (afterDate? t).bind fun t =>
    (afterByte? 0x54 t).bind fun t => (afterClock? t).bind afterSeconds? with
  | some offset => isOffset offset
  | none => false

end CatalogEdit.Timestamp
