import CatalogEdit.Mention.Tags
import CatalogEdit.Proofs.Text.Quotation
import CatalogEdit.Proofs.Text.Trim

/-!
# The tags of a request

## Main statements

* `Mention.exists_label?_of_mem_tags` — a tag is the label of some part of the request, and so it
  is never blank.
* `Mention.quoted_tags_are_kept` — tags in double quotes are taken as they are written.
-/

namespace CatalogEdit.Mention

theorem exists_label?_of_mem_quotedTags {t tag : Text} (h : tag ∈ quotedTags t) :
    ∃ part, Text.label? part = some tag := by
  obtain ⟨part, -, hpart⟩ := List.mem_filterMap.mp h
  exact ⟨part, hpart⟩

theorem exists_label?_of_mem_listedTags {t tag : Text} (h : tag ∈ listedTags t) :
    ∃ part, Text.label? part = some tag := by
  simp only [listedTags] at h
  split at h
  next => contradiction
  next segment _ =>
    obtain ⟨part, -, hpart⟩ := List.mem_filterMap.mp h
    exact ⟨part, hpart⟩

/-- Every tag is a label of some part of the request, quoted or listed. -/
theorem exists_label?_of_mem_tags {t tag : Text} (h : tag ∈ tags t) :
    ∃ part, Text.label? part = some tag := by
  cases hquoted : (quotedTags t).isEmpty with
  | true => exact exists_label?_of_mem_listedTags (by simpa [tags, hquoted] using h)
  | false => exact exists_label?_of_mem_quotedTags (by simpa [tags, hquoted] using h)

theorem ne_nil_of_mem_tags {t tag : Text} (h : tag ∈ tags t) : tag ≠ [] := by
  obtain ⟨part, hpart⟩ := exists_label?_of_mem_tags h
  exact Text.label?_ne_nil hpart

/-! ## Quoted tags -/

theorem quotedTags_text (q : QuotedText) :
    quotedTags q.text =
      (q.literals.filter fun literal => !literal.all Byte.isBlank).map Text.trim := by
  rw [quotedTags, q.occurrences_text, Text.filterMap_label?]

theorem quotedTags_of_isPlain {t : Text} (h : t.IsPlain) : quotedTags t = [] := by
  rw [quotedTags, Text.occurrences_quotedLiteral_of_isPlain h, List.filterMap_nil]

/-- If one of the literals in double quotes is not blank, the tags are the literals that are not,
without the blanks around them. They are in the order of the request, and whatever else they hold is
kept: quotes of the other kind, commas, the word `tag`. -/
theorem quoted_tags_are_kept (q : QuotedText)
    (h : ∃ literal ∈ q.literals, literal.all Byte.isBlank = false) :
    tags q.text = (q.literals.filter fun literal => !literal.all Byte.isBlank).map Text.trim := by
  obtain ⟨literal, hmem, hblank⟩ := h
  have hne : quotedTags q.text ≠ [] := by
    rw [quotedTags_text]
    refine List.ne_nil_of_mem (a := literal.trim) (List.mem_map_of_mem ?_)
    exact List.mem_filter.mpr ⟨hmem, by simp [hblank]⟩
  rw [tags, if_neg (by simpa using hne), quotedTags_text]

theorem quoted_tags_are_kept_sale : ∃ q : QuotedText,
    q.text = utf8 "add \"Tom's, tag & Sale\" to \"  \"\" sale\"" ∧
    (∃ literal ∈ q.literals, literal.all Byte.isBlank = false) ∧
    tags q.text = [utf8 "Tom's, tag & Sale", utf8 "sale"] := by
  refine ⟨⟨utf8 "add ",
    [⟨utf8 "Tom's, tag & Sale", utf8 " to ", by decide +kernel, by decide +kernel,
        by decide +kernel⟩,
      ⟨utf8 "  ", [], by decide +kernel, by decide +kernel, by decide +kernel⟩,
      ⟨utf8 " sale", [], by decide +kernel, by decide +kernel, by decide +kernel⟩],
    by decide +kernel⟩, by decide +kernel, by decide +kernel, ?_⟩
  exact (quoted_tags_are_kept _ (by decide +kernel)).trans (by decide +kernel)

end CatalogEdit.Mention
