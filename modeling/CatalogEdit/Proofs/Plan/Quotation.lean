import CatalogEdit.Proofs.Plan.Keyword
import CatalogEdit.Proofs.Text.Quotation

/-!
# Quoted words do not select items

What stands between double quotes names tags and the like. It is taken out of a request before
anything else is, so the items that are selected are the same whatever is quoted.

## Main statements

* `QuotedText.strip_text` — what is left without literals and signs.
* `quoted_words_do_not_select` — the items selected by two requests that differ in what they quote.
-/

namespace CatalogEdit

namespace QuotedText

variable (q : QuotedText)

/-- A literal leaves a space, as if a space had been written. -/
theorem strip_text : Residue.strip q.text = Residue.strip ([Byte.space].intercalate q.gaps) := by
  have hplain := Text.isPlain_intercalate q.isPlain_of_mem_gaps
  rw [Residue.strip, q.blankOut_text, Residue.strip,
    Text.blankOut_quotedLiteral_of_isPlain hplain]

theorem ofText_text (commandWords : List Text) :
    Residue.ofText q.text commandWords =
      Residue.ofText ([Byte.space].intercalate q.gaps) commandWords := by
  rw [Residue.ofText, strip_text, Residue.ofText]

theorem selection_text (commandWords : List Text) :
    Selection.ofText q.text commandWords =
      Selection.ofText ([Byte.space].intercalate q.gaps) commandWords := by
  rw [Selection.ofText, ofText_text, Selection.ofText]

example :
    Residue.ofText (utf8 "add \"5% off\" to mugs") Lexicon.Tags.commandWords = utf8 "mugs" := by
  decide +kernel

end QuotedText

/-- What is selected by a plan, if the name of a place is not left out first. -/
theorem Topic.selecting_eq {topic : Topic} (h : topic ≠ .inventory) (t : Text) :
    topic.selecting t = t := by
  cases topic with
  | inventory => contradiction
  | price => rfl
  | tags => rfl
  | status => rfl

/-- The residue of a request with literals in double quotes is the residue of what stands outside of
them, whatever the words of the command are. So two plans about prices, tags or the status select
the same items if their requests differ only in what is quoted. -/
theorem quoted_words_do_not_select (q : QuotedText) :
    (∀ commandWords : List Text, Residue.ofText q.text commandWords =
      Residue.ofText ([Byte.space].intercalate q.gaps) commandWords) ∧
    ∀ other : QuotedText, other.gaps = q.gaps → ∀ topic : Topic, topic ≠ .inventory →
      ∀ p p' : Plan, topic.respond q.text = .plan p → topic.respond other.text = .plan p' →
        p.selection = p'.selection := by
  refine ⟨q.ofText_text, fun other hgaps topic htopic p p' hp hp' => ?_⟩
  calc p.selection
      = Selection.ofText q.text (Lexicon.commandWords topic) := by
        rw [Topic.selection_of_respond hp, Topic.selecting_eq htopic]
    _ = Selection.ofText ([Byte.space].intercalate q.gaps) (Lexicon.commandWords topic) :=
        q.selection_text _
    _ = Selection.ofText other.text (Lexicon.commandWords topic) := by
        rw [other.selection_text, hgaps]
    _ = p'.selection := by
        rw [Topic.selection_of_respond hp', Topic.selecting_eq htopic]

theorem quoted_words_do_not_select_mugs : ∃ q other : QuotedText,
    q.text = utf8 "add \"it's 5% off, remove\" to blue mugs" ∧
    other.text = utf8 "add \"new\" to blue mugs" ∧ other.gaps = q.gaps ∧
    ∃ p p' : Plan, Topic.tags.respond q.text = .plan p ∧ Topic.tags.respond other.text = .plan p' ∧
      p.edit ≠ p'.edit ∧ p.selection = p'.selection ∧
      p.selection.titleContains = some (utf8 "blue mugs") := by
  have hplan : Topic.tags.respond (utf8 "add \"it's 5% off, remove\" to blue mugs") = .plan
      (TagRequest.plan (utf8 "add \"it's 5% off, remove\" to blue mugs")
        [utf8 "it's 5% off, remove"]) := by
    decide +kernel
  have hplanOther : Topic.tags.respond (utf8 "add \"new\" to blue mugs") = .plan
      (TagRequest.plan (utf8 "add \"new\" to blue mugs") [utf8 "new"]) := by
    decide +kernel
  obtain ⟨q, htext, hgaps⟩ : ∃ q : QuotedText,
      q.text = utf8 "add \"it's 5% off, remove\" to blue mugs" ∧
        q.gaps = [utf8 "add ", utf8 " to blue mugs"] :=
    ⟨⟨utf8 "add ", [⟨utf8 "it's 5% off, remove", utf8 " to blue mugs", by decide +kernel,
      by decide +kernel, by decide +kernel⟩], by decide +kernel⟩, by decide +kernel, rfl⟩
  obtain ⟨other, htextOther, hgapsOther⟩ : ∃ q : QuotedText,
      q.text = utf8 "add \"new\" to blue mugs" ∧ q.gaps = [utf8 "add ", utf8 " to blue mugs"] :=
    ⟨⟨utf8 "add ", [⟨utf8 "new", utf8 " to blue mugs", by decide +kernel, by decide +kernel,
      by decide +kernel⟩], by decide +kernel⟩, by decide +kernel, rfl⟩
  have hsame : other.gaps = q.gaps := hgapsOther.trans hgaps.symm
  rw [← htext] at hplan
  rw [← htextOther] at hplanOther
  refine ⟨q, other, htext, htextOther, hsame, _, _, hplan, hplanOther,
    by rw [htext, htextOther]; decide +kernel, ?_,
    by rw [htext]; decide +kernel⟩
  exact (quoted_words_do_not_select q).2 other hsame .tags (by decide) _ _ hplan hplanOther

end CatalogEdit
