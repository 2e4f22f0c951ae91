import CatalogEdit.Mention.Amount
import CatalogEdit.Mention.Phrase
import CatalogEdit.Mention.Status
import CatalogEdit.Mention.Tags
import CatalogEdit.Proofs.Number.Numeral
import CatalogEdit.Proofs.Text.CaseScan

/-!
# What a folded request mentions

Amounts and the status of a request do not change when the case of its letters is folded; its
places and tags are folded along with it.

## Main statements

* `Numeral.read?_lower` — a numeral is not changed.
* `Mention.percentage?_lower`, `Mention.currencyAmount?_lower`, `Mention.plainNumber?_lower` — the
  amounts are the same.
* `Mention.location?_lower`, `Mention.tags_lower` — places and tags are folded.
* `Mention.status?_lower` — the status is the same.
-/

namespace CatalogEdit

open Text (lower FoldsCase)
open Byte (IgnoresCase)

/-! ## Numerals -/

namespace Numeral

theorem dropSign_lower (t : Text) : dropSign (lower t) = lower (dropSign t) := by
  cases t with
  | nil => rfl
  | cons b rest =>
    by_cases hb : b = Byte.minus
    · subst hb
      rfl
    · have hlower : Byte.lower b ≠ Byte.minus := mt (Byte.lower_eq_iff (by decide)).mp hb
      rw [Text.lower_cons, dropSign_cons_of_ne hlower, dropSign_cons_of_ne hb, Text.lower_cons]

theorem readFraction_lower (t : Text) : readFraction (lower t) = readFraction t := by
  cases t with
  | nil => rfl
  | cons b rest =>
    by_cases hb : b = Byte.dot
    · subst hb
      exact Text.takeWhile_isDigit_lower rest
    · have hlower : Byte.lower b ≠ Byte.dot := mt (Byte.lower_eq_iff (by decide)).mp hb
      rw [Text.lower_cons, readFraction_cons_of_ne hlower, readFraction_cons_of_ne hb]

@[simp] theorem read?_lower (t : Text) : read? (lower t) = read? t := by
  simp only [read?, dropSign_lower, Text.takeWhile_isDigit_lower, Text.drop_lower,
    readFraction_lower, Text.head?_lower_beq (c := Byte.minus) (by decide)]

end Numeral

namespace Mention

/-! ## Amounts -/

@[simp] theorem plainNumber?_lower (t : Text) : plainNumber? (lower t) = plainNumber? t := by
  rw [plainNumber?, FoldsCase.search_id fun _ => Numeral.read?_lower, plainNumber?]

theorem percentAt?_lower (t : Text) : percentAt? (lower t) = percentAt? t := by
  simp only [percentAt?, Numeral.read?_lower, Text.drop_lower, Text.trimStart_lower,
    Text.head?_lower_beq (c := Byte.percent) (by decide)]

@[simp] theorem percentage?_lower (t : Text) : percentage? (lower t) = percentage? t := by
  rw [percentage?, FoldsCase.search_id fun _ => percentAt?_lower, percentage?]

theorem isLetter_of_mem_currencySymbols :
    ∀ symbol ∈ Lexicon.currencySymbols, ∀ b ∈ symbol, Byte.isLetter b = false := by
  decide +kernel

@[simp] theorem currencySymbolAt?_lower (t : Text) :
    currencySymbolAt? (lower t) = currencySymbolAt? t := by
  have h := isLetter_of_mem_currencySymbols
  rw [currencySymbolAt?, currencySymbolAt?]
  generalize Lexicon.currencySymbols = symbols at h ⊢
  induction symbols with
  | nil => rfl
  | cons symbol symbols ih =>
    obtain ⟨hsymbol, hsymbols⟩ := List.forall_mem_cons.mp h
    rw [List.find?_cons, List.find?_cons, Text.isPrefixOf_lower hsymbol, ih hsymbols]

theorem moneyAt?_lower (t : Text) : moneyAt? (lower t) = moneyAt? t := by
  simp only [moneyAt?, currencySymbolAt?_lower, Text.drop_lower, Text.trimStart_lower,
    Numeral.read?_lower]

@[simp] theorem currencyAmount?_lower (t : Text) :
    currencyAmount? (lower t) = currencyAmount? t := by
  rw [currencyAmount?, FoldsCase.search_id fun _ => moneyAt?_lower, plainNumber?_lower,
    currencyAmount?]

/-! ## Places -/

@[simp] theorem isAsciiEdge_lower (neighbour : Option UInt8) :
    isAsciiEdge (neighbour.map Byte.lower) = isAsciiEdge neighbour :=
  Text.all_lower_neighbour Byte.ignoresCase_isAsciiWord neighbour

theorem ignoresCase_isLocationByte : IgnoresCase isLocationByte := fun b => by
  grind [isLocationByte]

theorem afterKeyword?_lower (keywords : List Text) (t : Text) :
    afterKeyword? keywords (lower t) = (afterKeyword? keywords t).map lower := by
  simp only [afterKeyword?, Text.startsWith_lower, Text.drop_lower, Option.map_map]
  rfl

theorem phraseAfter?_lower {inClass : UInt8 → Bool} (h : IgnoresCase inClass) (t : Text) :
    phraseAfter? inClass (lower t) = (phraseAfter? inClass t).map lower := by
  simp only [phraseAfter?, Text.trimStart_lower, Text.length_lower, Text.any_head?_lower h,
    Text.takeWhile_lower h]
  split
  next => rfl
  next =>
    split
    next => rfl
    next => split <;> rfl

/-- The phrase after a keyword, if there is one, is folded. -/
theorem phraseAfterKeyword_lower {inClass : UInt8 → Bool} (h : IgnoresCase inClass)
    (keywords : List Text) (t : Text) :
    (afterKeyword? keywords (lower t)).bind (phraseAfter? inClass) =
      ((afterKeyword? keywords t).bind (phraseAfter? inClass)).map lower := by
  rw [afterKeyword?_lower, Option.bind_map, Option.map_bind]
  exact congrArg _ (funext (phraseAfter?_lower h))

theorem placeName?_lower (t : Text) : placeName? (lower t) = (placeName? t).map lower := by
  simp only [placeName?, Text.any_head?_lower Byte.ignoresCase_isBlank, Text.trimStart_lower,
    phraseAfterKeyword_lower ignoresCase_isLocationByte,
    phraseAfter?_lower ignoresCase_isLocationByte]
  split
  next => rw [Option.map_or]
  next => rfl

theorem foldsCase_locationAt? : FoldsCase lower locationAt? := by
  intro before t
  simp only [locationAt?, isAsciiEdge_lower, afterKeyword?_lower, Option.bind_map]
  split
  next =>
    rw [Option.map_bind]
    exact congrArg _ (funext placeName?_lower)
  next => rfl

theorem location?_lower (t : Text) : location? (lower t) = (location? t).map lower := by
  rw [location?, foldsCase_locationAt?.search, Option.bind_map, location?, Option.map_bind]
  exact congrArg _ (funext Text.label?_lower)

/-! ## Tags -/

theorem quotedTags_lower (t : Text) : quotedTags (lower t) = (quotedTags t).map lower := by
  rw [quotedTags, Text.foldsCase_quotedLiteral.occurrences, Text.filterMap_label?_lower, quotedTags]

theorem foldsCase_tagWord : FoldsCase (Prod.map id id) tagWord := by
  rw [Prod.map_id]
  refine Text.foldsCase_id fun before t => ?_
  simp only [tagWord, isAsciiEdge_lower, Text.startsWith_lower, Text.drop_lower, Text.head?_lower]

theorem ignoresCase_isTagSeparator : IgnoresCase isTagSeparator := fun b => by
  grind [isTagSeparator]

theorem listedTags_lower (t : Text) : listedTags (lower t) = (listedTags t).map lower := by
  have hsegment : tagSegment? (lower t) = (tagSegment? t).map lower := by
    rw [tagSegment?, foldsCase_tagWord.stretches, List.getElem?_map, tagSegment?]
  cases hsome : tagSegment? t with
  | none => simp [listedTags, hsegment, hsome]
  | some segment =>
    simp only [listedTags, hsegment, hsome, Option.map_some,
      Text.splitOnP_lower ignoresCase_isTagSeparator, Text.filterMap_label?_lower]

theorem tags_lower (t : Text) : tags (lower t) = (tags t).map lower := by
  simp only [tags, quotedTags_lower, listedTags_lower, List.isEmpty_map]
  split <;> rfl

/-! ## The status -/

@[simp] theorem status?_lower (t : Text) : status? (lower t) = status? t := by
  simp only [status?, Text.hasAnyWordStart_lower]

end Mention

end CatalogEdit
