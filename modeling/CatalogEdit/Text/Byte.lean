/-!
# Bytes of a text

Texts are sequences of UTF-8 bytes. This file names the bytes the library refers to, sorts
bytes into classes and folds letter case. Every class is stated on ASCII; a byte of a
character outside ASCII is never blank, never a digit and has no case.

## Main definitions

* `Byte.isBlank` — space, tab, line feed, vertical tab, form feed and carriage return.
* `Byte.isAsciiWord` — ASCII letters, digits and the underscore.
* `Byte.isWord` — the same, and every byte of a character outside ASCII.
* `Byte.lower` — the lower-case form of an ASCII capital; any other byte is kept.
-/

namespace CatalogEdit.Byte

/-! ## Named bytes -/

@[match_pattern] abbrev nul : UInt8 := 0x00
@[match_pattern] abbrev space : UInt8 := 0x20
@[match_pattern] abbrev quote : UInt8 := 0x22
@[match_pattern] abbrev percent : UInt8 := 0x25
@[match_pattern] abbrev ampersand : UInt8 := 0x26
@[match_pattern] abbrev apostrophe : UInt8 := 0x27
@[match_pattern] abbrev plus : UInt8 := 0x2B
@[match_pattern] abbrev comma : UInt8 := 0x2C
@[match_pattern] abbrev minus : UInt8 := 0x2D
@[match_pattern] abbrev dot : UInt8 := 0x2E
@[match_pattern] abbrev colon : UInt8 := 0x3A
@[match_pattern] abbrev semicolon : UInt8 := 0x3B
@[match_pattern] abbrev question : UInt8 := 0x3F
@[match_pattern] abbrev exclamation : UInt8 := 0x21
@[match_pattern] abbrev openBracket : UInt8 := 0x5B
@[match_pattern] abbrev backslash : UInt8 := 0x5C
@[match_pattern] abbrev closeBracket : UInt8 := 0x5D
@[match_pattern] abbrev underscore : UInt8 := 0x5F

/-! ## Classes -/

def isBlank (b : UInt8) : Bool := b == space || (0x09 ≤ b && b ≤ 0x0D)

def isDigit (b : UInt8) : Bool := 0x30 ≤ b && b ≤ 0x39

def isUpper (b : UInt8) : Bool := 0x41 ≤ b && b ≤ 0x5A

def isLower (b : UInt8) : Bool := 0x61 ≤ b && b ≤ 0x7A

def isAsciiWord (b : UInt8) : Bool := isDigit b || isUpper b || isLower b || b == underscore

def isWord (b : UInt8) : Bool := isAsciiWord b || 0x80 ≤ b

/-- The bytes of a character after its first. -/
def isContinuation (b : UInt8) : Bool := 0x80 ≤ b && b < 0xC0

/-! ## Case and digits -/

def lower (b : UInt8) : UInt8 := if isUpper b then b + 0x20 else b

/-- The value of an ASCII digit. -/
def digitValue (b : UInt8) : Nat := b.toNat - 0x30

/-- The value of a hexadecimal digit of either case. -/
def hexValue? (b : UInt8) : Option Nat :=
  if isDigit b then some (digitValue b)
  else if 0x41 ≤ b && b ≤ 0x46 then some (b.toNat - 0x41 + 10)
  else if 0x61 ≤ b && b ≤ 0x66 then some (b.toNat - 0x61 + 10)
  else none

end CatalogEdit.Byte
