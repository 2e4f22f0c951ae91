import CatalogEdit.Number.Numeral
import CatalogEdit.Lexicon

/-!
# Amounts in a request

Percentages, amounts of money and plain numbers. In each case the leftmost numeral that fits
counts, and a numeral whose value is out of range is no amount.

## Main definitions

* `Mention.plainNumber?` — the first numeral.
* `Mention.percentage?` — the first numeral with a percent sign after it.
* `Mention.currencyAmount?` — the first numeral with a currency symbol before it; without one,
  the first numeral.
-/

namespace CatalogEdit.Mention

def plainNumber? (t : Text) : Option Binary64 :=
  (Text.search (fun _ rest => Numeral.read? rest) t).bind Numeral.value?

/-- The numeral at the head of `t`, if blanks and a percent sign follow it. -/
def percentAt? (t : Text) : Option Numeral :=
  (Numeral.read? t).filter fun n =>
    (Text.trimStart (t.drop n.width)).head? == some Byte.percent

def percentage? (t : Text) : Option Binary64 :=
  (Text.search (fun _ rest => percentAt? rest) t).bind Numeral.value?

/-- The currency symbol at the head of `t`. -/
def currencySymbolAt? (t : Text) : Option Text :=
  Lexicon.currencySymbols.find? fun symbol => symbol.isPrefixOf t

/-- The numeral after a currency symbol at the head of `t`; blanks may stand between them. -/
def moneyAt? (t : Text) : Option Numeral :=
  (currencySymbolAt? t).bind fun symbol =>
    Numeral.read? (Text.trimStart (t.drop symbol.length))

def currencyAmount? (t : Text) : Option Binary64 :=
  ((Text.search (fun _ rest => moneyAt? rest) t).bind Numeral.value?).or (plainNumber? t)

end CatalogEdit.Mention
