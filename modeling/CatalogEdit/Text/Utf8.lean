import CatalogEdit.Text.Scan

/-!
# Well-formed texts

Every place of a text either begins a character in its UTF-8 form or does not. Characters are
written in their shortest form, and surrogates are no characters.

## Main definitions

* `Utf8.characterWidth?` — the width of the character at the head of a text.
* `Utf8.isWellFormed` — the text is a sequence of characters.
* `Utf8.repair` — a replacement character for every byte that belongs to no character.
-/

namespace CatalogEdit.Utf8

/-- The range of the second byte of a character of more than one byte, by its first byte, and
the number of continuation bytes after that one. -/
def secondByte? (first : UInt8) : Option ((UInt8 × UInt8) × Nat) :=
  if 0xC2 ≤ first && first ≤ 0xDF then some ((0x80, 0xBF), 0)
  else if first == 0xE0 then some ((0xA0, 0xBF), 1)
  else if first == 0xED then some ((0x80, 0x9F), 1)
  else if 0xE1 ≤ first && first ≤ 0xEF then some ((0x80, 0xBF), 1)
  else if first == 0xF0 then some ((0x90, 0xBF), 2)
  else if 0xF1 ≤ first && first ≤ 0xF3 then some ((0x80, 0xBF), 2)
  else if first == 0xF4 then some ((0x80, 0x8F), 2)
  else none

def characterWidth? : Text → Option Nat
  | [] => none
  | first :: rest =>
    if first < 0x80 then
      some 1
    else
      match secondByte? first, rest with
      | some ((low, high), more), second :: rest =>
        let tail := rest.take more
        if low ≤ second && second ≤ high && tail.length == more &&
            tail.all Byte.isContinuation then
          some (2 + more)
        else
          none
      | _, _ => none

def character : Matcher Text := fun _ t => (characterWidth? t).map fun n => (t.take n, n)

def isWellFormed (t : Text) : Bool :=
  (Text.pieces character t).all fun
    | .byte _ => false
    | .found _ => true

def replacement : Text := utf8 "\uFFFD"

def repair (t : Text) : Text :=
  (Text.pieces character t).flatMap fun
    | .byte _ => replacement
    | .found c => c

end CatalogEdit.Utf8
