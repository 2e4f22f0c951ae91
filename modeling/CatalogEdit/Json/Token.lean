import CatalogEdit.Json.Basic
import CatalogEdit.Number.Numeral
import CatalogEdit.Text.Utf8

/-!
# The tokens of JSON texts

A JSON text is a sequence of brackets, commas, colons, literals, numbers and strings with blanks
in between. Only space, tab, line feed and carriage return are blanks here.

## Main definitions

* `Json.Token` — the tokens; a number or a word such as `true` is a token with its value, but a
  number out of range has none.
* `Json.Token.at?` — the token at the head of a text, and its width.
* `Json.Token.ofText` — the tokens of a text with their positions.
-/

namespace CatalogEdit.Json

inductive Token where
  | openObject
  | closeObject
  | openArray
  | closeArray
  | comma
  | colon
  | string (t : Text)
  | scalar (value : Json)
  /-- A number beyond the range of floating-point numbers, as it is written. -/
  | outOfRange (literal : Text)
  /-- A byte with which no token begins. -/
  | stray

namespace Token

/-! ## Strings -/

/-- A part of a string as it is written: a byte, or a UTF-16 code unit given by its number. -/
inductive Part where
  | byte (b : UInt8)
  | unit (n : Nat)
deriving DecidableEq, Repr

/-- The byte a one-letter escape stands for. -/
def escaped? (b : UInt8) : Option UInt8 :=
  [(Byte.quote, Byte.quote), (Byte.backslash, Byte.backslash), (0x2F, 0x2F), (0x62, 0x08),
    (0x66, 0x0C), (0x6E, 0x0A), (0x72, 0x0D), (0x74, 0x09)].lookup b

def codeUnit? (a b c d : UInt8) : Option Nat := do
  let a ← Byte.hexValue? a
  let b ← Byte.hexValue? b
  let c ← Byte.hexValue? c
  let d ← Byte.hexValue? d
  return ((a * 16 + b) * 16 + c) * 16 + d

/-- The parts of a string up to the closing quote, and the bytes they take with that quote. -/
def parts? : Text → Option (List Part × Nat)
  | [] => none
  | Byte.quote :: _ => some ([], 1)
  | Byte.backslash :: 0x75 :: a :: b :: c :: d :: rest =>
    match codeUnit? a b c d, parts? rest with
    | some n, some (parts, width) => some (.unit n :: parts, width + 6)
    | _, _ => none
  | Byte.backslash :: e :: rest =>
    match escaped? e, parts? rest with
    | some b, some (parts, width) => some (.byte b :: parts, width + 2)
    | _, _ => none
  | b :: rest =>
    if b < 0x20 || b == Byte.backslash then
      none
    else
      (parts? rest).map fun (parts, width) => (.byte b :: parts, width + 1)

def isHighSurrogate (n : Nat) : Bool := 0xD800 ≤ n && n < 0xDC00

def isLowSurrogate (n : Nat) : Bool := 0xDC00 ≤ n && n < 0xE000

def encodeCodePoint (n : Nat) : Text := String.utf8EncodeChar (Char.ofNat n)

/-- The text written by the parts of a string. Two surrogates make one character, and none may
stand alone. -/
def decodeParts? : List Part → Option Text
  | [] => some []
  | .byte b :: rest => (decodeParts? rest).map (b :: ·)
  | .unit high :: .unit low :: rest =>
    if isHighSurrogate high && isLowSurrogate low then
      (decodeParts? rest).map
        (encodeCodePoint (0x10000 + (high - 0xD800) * 0x400 + (low - 0xDC00)) ++ ·)
    else if isHighSurrogate high || isLowSurrogate high then
      none
    else
      (decodeParts? (.unit low :: rest)).map (encodeCodePoint high ++ ·)
  | .unit n :: rest =>
    if isHighSurrogate n || isLowSurrogate n then
      none
    else
      (decodeParts? rest).map (encodeCodePoint n ++ ·)

/-- The string whose opening quote stands just before `t`. -/
def stringAfter? (t : Text) : Option (Token × Nat) := do
  let (parts, width) ← parts? t
  let text ← decodeParts? parts
  if Utf8.isWellFormed text then some (.string text, width + 1) else none

/-! ## Numbers -/

/-- The exponent at the head of `t`, and its width; without one, zero in no bytes. -/
def exponentAt (t : Text) : Int × Nat :=
  match t with
  | e :: rest =>
    let signed := rest.head?.any fun b => b == Byte.plus || b == Byte.minus
    let digits := (if signed then rest.tail else rest).takeWhile Byte.isDigit
    if (e == 0x65 || e == 0x45) && !digits.isEmpty then
      let n : Int := Text.digitsValue digits
      (if rest.head? == some Byte.minus then -n else n,
        1 + (if signed then 1 else 0) + digits.length)
    else
      (0, 0)
  | [] => (0, 0)

/-- Whether digits are missing behind `n`: `rest` goes on with a point or with an exponent. -/
def breaksOff (n : Numeral) (rest : Text) : Bool :=
  rest.head?.any fun b => b == 0x65 || b == 0x45 || (b == Byte.dot && n.fraction.isEmpty)

/-- A number has no superfluous leading zero, and no point or exponent without digits. -/
def numberAt? (t : Text) : Option (Token × Nat) := do
  let n ← (Numeral.read? t).filter fun n => n.whole.length == 1 || n.whole.head? != some 0x30
  let (exponent, width) := exponentAt (t.drop n.width)
  if width == 0 && breaksOff n (t.drop n.width) then
    none
  else
    match Binary64.ofScientific? n.negative n.numerator (exponent - n.fraction.length) with
    | none => some (.outOfRange (t.take (n.width + width)), n.width + width)
    | some x =>
      if n.fraction.isEmpty && width == 0 then
        let magnitude : Int := n.numerator
        some (.scalar (.integer (if n.negative then -magnitude else magnitude)), n.width)
      else
        some (.scalar (.number x), n.width + width)

/-! ## All tokens -/

def marks : List (UInt8 × Token) :=
  [(0x7B, .openObject), (0x7D, .closeObject), (Byte.openBracket, .openArray),
    (Byte.closeBracket, .closeArray), (Byte.comma, .comma), (Byte.colon, .colon)]

def literals : List (Text × Json) :=
  [(utf8 "null", .null), (utf8 "true", .bool true), (utf8 "false", .bool false)]

def at? (t : Text) : Option (Token × Nat) :=
  match t with
  | [] => none
  | Byte.quote :: rest => stringAfter? rest
  | b :: _ =>
    match marks.lookup b with
    | some token => some (token, 1)
    | none =>
      match literals.find? fun l => l.1.isPrefixOf t with
      | some (word, value) => some (.scalar value, word.length)
      | none => numberAt? t

def isBlank (b : UInt8) : Bool := [0x20, 0x09, 0x0A, 0x0D].contains b

/-- A token that takes `width` bytes. -/
structure Sized where
  token : Token
  width : Nat

def sized : Matcher Sized := fun _ t => (at? t).map fun (token, width) => (⟨token, width⟩, width)

/-- The tokens among `pieces`, each with the position of its first byte counted from one. -/
def locate (position : Nat) : List (Piece Sized) → List (Token × Nat)
  | [] => []
  | .byte b :: rest =>
    if isBlank b then locate (position + 1) rest
    else (.stray, position) :: locate (position + 1) rest
  | .found s :: rest => (s.token, position) :: locate (position + s.width) rest

def ofText (t : Text) : List (Token × Nat) := locate 1 (Text.pieces sized t)

end Token

end CatalogEdit.Json
