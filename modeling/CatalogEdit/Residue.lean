import CatalogEdit.Mention.Amount
import CatalogEdit.Text.Quoted
import CatalogEdit.Text.Word

/-!
# The residue of a request

What is left of a request once everything with a meaning of its own was taken out: quoted
literals, numbers, currency symbols, punctuation, the words of the command and the stop words.
The residue says which items are meant.

## Main definitions

* `Residue.strip` — quoted literals, numbers, symbols and punctuation give way to spaces.
* `Residue.ofText` — the residue, its words joined by single spaces.
* `Selection.ofText` — the items whose title contains the residue.
-/

namespace CatalogEdit

namespace Residue

/-! ## Literals and signs -/

/-- A numeral with the blanks and the percent sign after it. -/
def numberToken : Matcher Unit := fun _ t =>
  (Numeral.read? t).map fun n =>
    let rest := Text.trimStart (t.drop n.width)
    ((), t.length - rest.length + (if rest.head? == some Byte.percent then 1 else 0))

def currencySymbol : Matcher Unit := fun _ t =>
  (Mention.currencySymbolAt? t).map fun symbol => ((), symbol.length)

def isPunctuation (b : UInt8) : Bool :=
  [Byte.comma, Byte.dot, Byte.semicolon, Byte.colon, Byte.exclamation, Byte.question,
    Byte.ampersand, Byte.quote, Byte.percent].contains b

def blankPunctuation (t : Text) : Text :=
  t.map fun b => if isPunctuation b then Byte.space else b

def strip (t : Text) : Text :=
  blankPunctuation
    (Text.blankOut currencySymbol
      (Text.blankOut numberToken (Text.blankOut Text.quotedLiteral t)))

/-! ## Words -/

/-- Insert `t` before the first text that is not longer. -/
def insertByLength (t : Text) : List Text → List Text
  | [] => [t]
  | u :: us => if u.length ≤ t.length then t :: u :: us else u :: insertByLength t us

/-- The longest texts first; texts of one length keep their order. -/
def longestFirst (texts : List Text) : List Text := texts.foldr insertByLength []

/-- The words and phrases taken out of a request: phrases go before their parts. -/
def fragments (commandWords : List Text) : List Text :=
  (longestFirst (commandWords ++ Lexicon.stopWords)).filter fun f => (Text.label? f).isSome

def ofText (t : Text) (commandWords : List Text) : Text :=
  Text.collapse (Text.removeWords (fragments commandWords) (strip t))

end Residue

/-- A residue of fewer bytes says too little to select anything. -/
abbrev Selection.minTitleLength : Nat := 3

def Selection.ofText (t : Text) (commandWords : List Text) : Selection :=
  let residue := Residue.ofText t commandWords
  if Selection.minTitleLength ≤ residue.length then { titleContains := some residue } else {}

end CatalogEdit
