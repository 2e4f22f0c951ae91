import CatalogEdit.Proofs.Mention.Tags

/-!
# Empty quotes

A literal of nothing but blanks is read and gives no tag. Two quotes with nothing between them are
not read as a literal at all: the second one opens a literal, which ends at the quote that was to
open the next one. From there on the gaps are read instead of the literals, up to a gap that is
empty itself. So the tags stay the same where nothing is left to be turned inside out, and
otherwise if it happens that the same is read either way.

## Main definitions

* `QuotedText.withEmptyQuotes` — an empty pair of double quotes between two parts of a text.
* `Quotation.insideOut` — what is read from the second quote of the pair on.

## Main statements

* `Quotation.occurrences_quote_cons` — what the second quote of the pair opens.
* `Quotation.occurrences_insideOut` — the gaps that are read, if there is no apostrophe.
* `Mention.empty_quotes_turn_literals_inside_out` — when an empty pair leaves the tags as they are.
* `Mention.empty_quotes_hide_tag` — an empty pair that does not.
-/

namespace CatalogEdit

open Text (quotedLiteral occurrences)

/-! ## A quote that opens no literal of its own -/

namespace Text

variable {t : Text}

/-- Where no literal begins, the scan goes on with the next byte. -/
theorem occurrences_cons_of_eq_none {b : UInt8} (h : quotedLiteral none (b :: t) = none) :
    occurrences quotedLiteral (b :: t) = occurrences quotedLiteral t := by
  rw [occurrences, pieces, piecesFrom_cons_of_ne_some (by simp [h]),
    piecesFrom_before quotedLiteral_before 0 (some b) none t]
  rfl

/-- Behind a literal the scan goes on as at the beginning of a text. -/
theorem occurrences_of_eq_some {literal : Text} (hne : t ≠ [])
    (h : quotedLiteral none t = some (literal, literal.length + 2)) :
    occurrences quotedLiteral t =
      literal :: occurrences quotedLiteral (t.drop (literal.length + 2)) := by
  rw [occurrences, pieces, piecesFrom_of_eq_some hne h,
    piecesFrom_before quotedLiteral_before 0 (some Byte.space) none]
  rfl

/-- The first of two quotes with nothing between them opens no literal. -/
theorem quotedLiteral_quote_quote (before : Option UInt8) (t : Text) :
    quotedLiteral before (Byte.quote :: Byte.quote :: t) = none := by
  simp [quotedLiteral, quotedBody?, isQuoteMark]

/-- A quote opens no literal if no other quote follows. -/
theorem quotedLiteral_quote_of_notMem (h : Byte.quote ∉ t) (before : Option UInt8) :
    quotedLiteral before (Byte.quote :: t) = none := by
  simp [quotedLiteral, quotedBody?, Text.takeWhile_bne_of_notMem h]

theorem quote_notMem_of_isPlain (h : t.IsPlain) : Byte.quote ∉ t := fun hmem =>
  absurd (h Byte.quote hmem) (by decide)

end Text

/-! ## Literals inside out -/

/-- What is read if a quote stands before the gap: the gaps up to the first empty one instead of the
literals, and the literals behind that. -/
def Quotation.insideOut (gap : Text) : List Quotation → List Text
  | [] => []
  | q :: quotations =>
    if gap = [] then (q :: quotations).map Quotation.literal
    else gap :: insideOut q.gap quotations

/-- The text `first`, an empty pair of double quotes and the text `second`. Each place outside the
literals cuts a text with quotations into two such texts. -/
def QuotedText.withEmptyQuotes (first second : QuotedText) : Text :=
  first.text ++ Byte.quote :: Byte.quote :: second.text

/-- A quote before a text that begins with a literal, or without literals, opens nothing. -/
theorem QuotedText.occurrences_quote_cons_of_nil (q : QuotedText)
    (h : q.lead = [] ∨ q.quotations = []) :
    occurrences quotedLiteral (Byte.quote :: q.text) = q.literals := by
  have hnone : quotedLiteral none (Byte.quote :: q.text) = none := by
    by_cases hquotations : q.quotations = []
    · refine Text.quotedLiteral_quote_of_notMem ?_ none
      simpa [text, hquotations] using Text.quote_notMem_of_isPlain q.isPlain_lead
    · obtain ⟨first, rest, hcons⟩ := List.exists_cons_of_ne_nil hquotations
      have hlead := h.resolve_right hquotations
      simp only [text, hlead, hcons, List.nil_append, List.flatMap_cons, Quotation.text,
        List.cons_append]
      exact Text.quotedLiteral_quote_quote none _
  rw [Text.occurrences_cons_of_eq_none hnone, occurrences_text]

/-- A quote before a gap opens a literal that ends at the next quote. -/
theorem Quotation.occurrences_quote_cons (q : Quotation) {gap : Text} (hne : gap ≠ [])
    (hgap : gap.IsPlain) (rest : Text) :
    occurrences quotedLiteral (Byte.quote :: (gap ++ (q.text ++ rest))) =
      gap :: occurrences quotedLiteral (q.literal ++ Byte.quote :: (q.gap ++ rest)) := by
  obtain ⟨tail, htail⟩ : ∃ tail, tail = q.literal ++ Byte.quote :: (q.gap ++ rest) := ⟨_, rfl⟩
  have htext : q.text ++ rest = Byte.quote :: tail := by simp [text, htail]
  have hbody := Text.quotedBody?_append hne (Text.quote_notMem_of_isPlain hgap) tail
  have hopen : quotedLiteral none (Byte.quote :: (gap ++ Byte.quote :: tail)) =
      some (gap, gap.length + 2) := by
    simp [quotedLiteral, hbody, Text.isQuoteMark]
  have hdrop : (Byte.quote :: (gap ++ Byte.quote :: tail)).drop (gap.length + 2) = tail := by
    simp
  rw [htext, Text.occurrences_of_eq_some (List.cons_ne_nil _ _) hopen, hdrop, htail]

/-- Where the literals hold no apostrophe, a quote before a row of them is all it takes to read them
inside out. -/
theorem Quotation.occurrences_insideOut {quotations : List Quotation}
    (h : ∀ q ∈ quotations, Byte.apostrophe ∉ q.literal) {gap : Text} (hgap : gap.IsPlain) :
    occurrences quotedLiteral (Byte.quote :: (gap ++ quotations.flatMap Quotation.text)) =
      insideOut gap quotations := by
  induction quotations generalizing gap with
  | nil => exact QuotedText.occurrences_quote_cons_of_nil ⟨gap, [], hgap⟩ (.inr rfl)
  | cons q quotations ih =>
    obtain ⟨hq, hquotations⟩ := List.forall_mem_cons.mp h
    by_cases hne : gap = []
    · rw [insideOut, if_pos hne]
      exact QuotedText.occurrences_quote_cons_of_nil ⟨gap, q :: quotations, hgap⟩ (.inl hne)
    · have hliteral : q.literal.IsPlain := fun b hb => by
        have hquote : b ≠ Byte.quote := ne_of_mem_of_not_mem hb q.quote_notMem
        have happostrophe : b ≠ Byte.apostrophe := ne_of_mem_of_not_mem hb hq
        simp [Text.isQuoteMark, hquote, happostrophe]
      rw [List.flatMap_cons, q.occurrences_quote_cons hne hgap,
        Text.occurrences_quotedLiteral_append_of_isPlain hliteral, ih hquotations q.isPlain_gap,
        insideOut, if_neg hne]

/-! ## The tags -/

namespace Mention

variable {t : Text}

theorem tags_of_ne_nil (h : quotedTags t ≠ []) : tags t = quotedTags t := by
  rw [tags, if_neg (by simpa using h)]

theorem tags_of_eq_nil (h : quotedTags t = []) : tags t = listedTags t := by
  rw [tags, if_pos (by simpa using h)]

variable {first second : QuotedText}

theorem quotedTags_text_append (q : QuotedText) (rest : Text) :
    quotedTags (q.text ++ rest) = q.literals.filterMap Text.label? ++ quotedTags rest := by
  rw [quotedTags, q.occurrences_text_append, List.filterMap_append, quotedTags]

theorem quotedTags_text_append_text (first second : QuotedText) :
    quotedTags (first.text ++ second.text) =
      (first.literals ++ second.literals).filterMap Text.label? := by
  rw [quotedTags_text_append, quotedTags, second.occurrences_text, List.filterMap_append]

/-- The first quote of an empty pair is passed over. -/
theorem quotedTags_withEmptyQuotes (first second : QuotedText) :
    quotedTags (first.withEmptyQuotes second) =
      first.literals.filterMap Text.label? ++ quotedTags (Byte.quote :: second.text) := by
  have hpair : quotedTags (Byte.quote :: Byte.quote :: second.text) =
      quotedTags (Byte.quote :: second.text) := by
    rw [quotedTags, Text.occurrences_cons_of_eq_none (Text.quotedLiteral_quote_quote none _),
      quotedTags]
  rw [QuotedText.withEmptyQuotes, quotedTags_text_append, hpair]

/-- Without the pair, the tags are the literals that are not blank. -/
theorem tags_text_append_text
    (h : ∃ literal ∈ first.literals ++ second.literals, literal.all Byte.isBlank = false) :
    (first.literals ++ second.literals).filterMap Text.label? ≠ [] ∧
      tags (first.text ++ second.text) =
        (first.literals ++ second.literals).filterMap Text.label? := by
  obtain ⟨literal, hmem, hblank⟩ := h
  have hne : (first.literals ++ second.literals).filterMap Text.label? ≠ [] :=
    List.ne_nil_of_mem
      (List.mem_filterMap.mpr ⟨literal, hmem, Text.label?_of_not_isBlank hblank⟩)
  have htags := quotedTags_text_append_text first second
  exact ⟨hne, by rw [tags_of_ne_nil (htags ▸ hne), htags]⟩

/-- The tags stay the same exactly if the same quoted tags are read from the second quote on, or if
none is left and the same tags are listed. -/
theorem tags_withEmptyQuotes_eq_iff
    (h : ∃ literal ∈ first.literals ++ second.literals, literal.all Byte.isBlank = false) :
    tags (first.withEmptyQuotes second) = tags (first.text ++ second.text) ↔
      quotedTags (Byte.quote :: second.text) = second.literals.filterMap Text.label? ∨
        quotedTags (first.withEmptyQuotes second) = [] ∧
          listedTags (first.withEmptyQuotes second) = tags (first.text ++ second.text) := by
  obtain ⟨hne, htags⟩ := tags_text_append_text h
  have hsame : quotedTags (first.withEmptyQuotes second) = tags (first.text ++ second.text) ↔
      quotedTags (Byte.quote :: second.text) = second.literals.filterMap Text.label? := by
    rw [quotedTags_withEmptyQuotes, htags, List.filterMap_append, List.append_cancel_left_eq]
  by_cases hnil : quotedTags (first.withEmptyQuotes second) = []
  · have hdiffer : ¬ quotedTags (Byte.quote :: second.text) =
        second.literals.filterMap Text.label? := by
      rw [← hsame, hnil, htags]
      exact hne.symm
    rw [tags_of_eq_nil hnil]
    simp [hnil, hdiffer]
  · rw [tags_of_ne_nil hnil, hsame]
    simp [hnil]

/-- What stands between the pair and the next literal becomes a tag. -/
theorem exists_tags_withEmptyQuotes_eq (hlead : second.lead.all Byte.isBlank = false)
    (hquotations : second.quotations ≠ []) : ∃ others,
      tags (first.withEmptyQuotes second) =
        first.literals.filterMap Text.label? ++ Text.trim second.lead :: others := by
  obtain ⟨q, rest, hcons⟩ := List.exists_cons_of_ne_nil hquotations
  have hne : second.lead ≠ [] := by
    intro hnil
    simp [hnil] at hlead
  have htext : second.text = second.lead ++ (q.text ++ rest.flatMap Quotation.text) := by
    rw [QuotedText.text, hcons, List.flatMap_cons]
  have hread : ∃ others, quotedTags (Byte.quote :: second.text) =
      Text.trim second.lead :: others := by
    rw [quotedTags, htext, q.occurrences_quote_cons hne second.isPlain_lead,
      List.filterMap_cons_some (Text.label?_of_not_isBlank hlead)]
    exact ⟨_, rfl⟩
  obtain ⟨others, hothers⟩ := hread
  have hpair := quotedTags_withEmptyQuotes first second
  rw [hothers] at hpair
  exact ⟨others, by rw [tags_of_ne_nil (by simp [hpair]), hpair]⟩

theorem quotedTags_withEmptyQuotes_insideOut
    (h : ∀ literal ∈ second.literals, Byte.apostrophe ∉ literal) :
    quotedTags (first.withEmptyQuotes second) =
      (first.literals ++ Quotation.insideOut second.lead second.quotations).filterMap
        Text.label? := by
  have hquotations : ∀ q ∈ second.quotations, Byte.apostrophe ∉ q.literal := fun q hq =>
    h q.literal (List.mem_map_of_mem hq)
  rw [quotedTags_withEmptyQuotes, quotedTags, QuotedText.text,
    Quotation.occurrences_insideOut hquotations second.isPlain_lead, List.filterMap_append]

/-- An empty pair of double quotes leaves the tags as they are exactly if the same tags are read
from its second quote on, or if no quoted tag is left and the same tags are listed. Right before a
literal and behind the last one it always does. Anywhere else what stands between the pair and the
next literal becomes a tag, unless that is blank, and where the literals behind the pair hold no
apostrophe they are read inside out. -/
theorem empty_quotes_turn_literals_inside_out
    (h : ∃ literal ∈ first.literals ++ second.literals, literal.all Byte.isBlank = false) :
    tags (first.text ++ second.text) =
      (first.literals ++ second.literals).filterMap Text.label? ∧
    (tags (first.withEmptyQuotes second) = tags (first.text ++ second.text) ↔
      quotedTags (Byte.quote :: second.text) = second.literals.filterMap Text.label? ∨
        quotedTags (first.withEmptyQuotes second) = [] ∧
          listedTags (first.withEmptyQuotes second) = tags (first.text ++ second.text)) ∧
    (second.lead = [] ∨ second.quotations = [] →
      tags (first.withEmptyQuotes second) = tags (first.text ++ second.text)) ∧
    (second.lead.all Byte.isBlank = false → second.quotations ≠ [] → ∃ others,
      tags (first.withEmptyQuotes second) =
        first.literals.filterMap Text.label? ++ Text.trim second.lead :: others) ∧
    ((∀ literal ∈ second.literals, Byte.apostrophe ∉ literal) →
      quotedTags (first.withEmptyQuotes second) =
        (first.literals ++ Quotation.insideOut second.lead second.quotations).filterMap
          Text.label?) := by
  refine ⟨(tags_text_append_text h).2, tags_withEmptyQuotes_eq_iff h, fun hplace => ?_,
    exists_tags_withEmptyQuotes_eq, quotedTags_withEmptyQuotes_insideOut⟩
  refine (tags_withEmptyQuotes_eq_iff h).mpr (.inl ?_)
  rw [quotedTags, second.occurrences_quote_cons_of_nil hplace]

theorem empty_quotes_turn_literals_inside_out_red : ∃ first second : QuotedText,
    first.withEmptyQuotes second = utf8 "tag \"red\" and \"\" then \"blue\" or \"green\"" ∧
    (∃ literal ∈ first.literals ++ second.literals, literal.all Byte.isBlank = false) ∧
    (∀ literal ∈ second.literals, Byte.apostrophe ∉ literal) ∧
    tags (first.text ++ second.text) = [utf8 "red", utf8 "blue", utf8 "green"] ∧
    quotedTags (first.withEmptyQuotes second) = [utf8 "red", utf8 "then", utf8 "or"] := by
  refine ⟨⟨utf8 "tag ",
      [⟨utf8 "red", utf8 " and ", by decide +kernel, by decide +kernel, by decide +kernel⟩],
      by decide +kernel⟩,
    ⟨utf8 " then ",
      [⟨utf8 "blue", utf8 " or ", by decide +kernel, by decide +kernel, by decide +kernel⟩,
        ⟨utf8 "green", [], by decide +kernel, by decide +kernel, by decide +kernel⟩],
      by decide +kernel⟩,
    by decide +kernel, by decide +kernel, by decide +kernel, ?_, ?_⟩
  · exact (empty_quotes_turn_literals_inside_out (by decide +kernel)).1.trans (by decide +kernel)
  · exact ((empty_quotes_turn_literals_inside_out (by decide +kernel)).2.2.2.2
      (by decide +kernel)).trans (by decide +kernel)

/-- The words before a tag are taken for the tag. -/
theorem empty_quotes_hide_tag : ∃ first second : QuotedText,
    first.text ++ second.text = utf8 "add tag  to mugs \"sale\"" ∧
    (∃ literal ∈ first.literals ++ second.literals, literal.all Byte.isBlank = false) ∧
    first.withEmptyQuotes second = utf8 "add tag \"\" to mugs \"sale\"" ∧
    tags (first.text ++ second.text) = [utf8 "sale"] ∧
    tags (first.withEmptyQuotes second) = [utf8 "to mugs"] :=
  ⟨⟨utf8 "add tag ", [], by decide +kernel⟩,
    ⟨utf8 " to mugs ",
      [⟨utf8 "sale", [], by decide +kernel, by decide +kernel, by decide +kernel⟩],
      by decide +kernel⟩,
    by decide +kernel, by decide +kernel, by decide +kernel, by decide +kernel, by decide +kernel⟩

end Mention

end CatalogEdit
