import CatalogEdit.Text.Byte

/-!
# Texts

A text is the list of its UTF-8 bytes. Case is folded on ASCII letters alone, and blanks are
those of `Byte.isBlank`.

## Main definitions

* `utf8` — the text of a string.
* `Text.lower`, `Text.trim` — case folding, and removal of the blanks at both ends.
* `Text.words`, `Text.collapse` — the maximal runs without a blank, and those runs joined by
  single spaces.
* `Text.startsWith` — whether a text begins with another one, ignoring case.
* `Text.decimal` — the decimal digits of a natural number.
* `Text.untilNul` — what a text says when it is a message.
-/

namespace CatalogEdit

abbrev Text := List UInt8

def utf8 (s : String) : Text := s.toByteArray.data.toList

theorem utf8_inj {s t : String} : utf8 s = utf8 t ↔ s = t := by
  rw [utf8, utf8, Array.toList_inj, ← String.toByteArray_inj]
  exact ByteArray.ext_iff.symm

namespace Text

/-! ## Case -/

def lower (t : Text) : Text := t.map Byte.lower

@[simp] theorem length_lower (t : Text) : (lower t).length = t.length := by simp [lower]

/-- Whether `t` begins with `needle`, ignoring the case of ASCII letters. -/
def startsWith (needle t : Text) : Bool := lower (t.take needle.length) == lower needle

/-! ## Blanks -/

def trimStart (t : Text) : Text := t.dropWhile Byte.isBlank

def trimEnd (t : Text) : Text := (t.reverse.dropWhile Byte.isBlank).reverse

def trim (t : Text) : Text := trimEnd (trimStart t)

/-- The trimmed text, unless nothing is left of it. -/
def label? (t : Text) : Option Text := if (trim t).isEmpty then none else some (trim t)

def words (t : Text) : List Text := (t.splitOnP Byte.isBlank).filter fun w => !w.isEmpty

def collapse (t : Text) : Text := [Byte.space].intercalate (words t)

/-! ## Counting and numbers -/

/-- The number of characters of a well-formed text: a character has one first byte. -/
def codePoints (t : Text) : Nat := t.countP fun b => !Byte.isContinuation b

/-- The number written by a run of digits. -/
def digitsValue (digits : Text) : Nat :=
  digits.foldl (fun n d => 10 * n + Byte.digitValue d) 0

/-- The decimal digits of `n`, without leading zeros. -/
def decimal (n : Nat) : Text := (Nat.toDigits 10 n).map Char.toUInt8

/-! ## Messages -/

/-- A message ends before its first NUL: what was quoted after one is not reported. -/
def untilNul (t : Text) : Text := t.takeWhile (· != Byte.nul)

theorem nul_notMem_untilNul (t : Text) : Byte.nul ∉ t.untilNul := fun h =>
  absurd (List.all_eq_true.mp List.all_takeWhile _ h) (by decide)

end Text

end CatalogEdit
