import CatalogEdit.Proofs.Plan.Keyword
import CatalogEdit.Proofs.Text.Spread

/-!
# Phrases of the command in the residue

Words and phrases are taken out of a request as they are written, and only then are blanks
collapsed. So a phrase of the command whose words stand further apart, or come together because
something between them was taken out, is not taken out itself and stands in the residue. A word
without blanks does not come about in this way, nor does a phrase with such a word in it.

## Main statements

* `Residue.phrases_survive_spread` — which words and phrases of the command are left.
* `Residue.phrase_in_residue` — a phrase of the command that is left.
-/

namespace CatalogEdit

namespace Residue

open Text (StandsAlone isPhrase)

variable {commandWords : List Text} {word : Text}

theorem isPhrase_of_mem_stopWords :
    ∀ word ∈ Lexicon.stopWords, isPhrase word ∧ word ≠ [] ∧
      ∀ b ∈ word, Byte.isBlank b = false := by
  decide +kernel

theorem mem_fragments_of_isPhrase (h : word ∈ commandWords ++ Lexicon.stopWords)
    (hphrase : isPhrase word) : word ∈ fragments commandWords := by
  refine mem_fragments.mpr ⟨h, Option.isSome_iff_ne_none.mpr fun hnone => ?_⟩
  have hhead := (Text.isPhrase_iff.mp hphrase).1
  cases word with
  | nil => simp at hhead
  | cons b word =>
    have hb := Text.isWord_of_isBlank (Text.label?_eq_none.mp hnone b List.mem_cons_self)
    simp [hb] at hhead

/-- A phrase is not left if one of its words is taken out by itself. -/
theorem not_standsAlone_of_mem_words {part : Text} (hpart : part ∈ Text.words word)
    (hmem : part ∈ commandWords ++ Lexicon.stopWords) (hphrase : isPhrase part) (t : Text) :
    ¬ StandsAlone word (ofText t commandWords) := fun h =>
  not_standsAlone_ofText (mem_fragments_of_isPhrase hmem hphrase) hphrase
    (Text.isBlankFree_of_mem_words hpart) t ((Text.standsAlone_of_mem_words hpart).trans h)

theorem not_standsAlone_of_mem_stopWords (hword : word ∈ Lexicon.stopWords) (t : Text) :
    ¬ StandsAlone word (ofText t commandWords) := by
  obtain ⟨hphrase, hne, hblank⟩ := isPhrase_of_mem_stopWords word hword
  exact not_standsAlone_ofText
    (mem_fragments_of_isPhrase (List.mem_append_right _ hword) hphrase) hphrase ⟨hne, hblank⟩ t

/-- A word or phrase of the command stands alone in the residue exactly if its words do so before
blanks are collapsed, with any blanks between them. The phrase as it is written does not, so it is
its blanks that are different. No phrase is left if one of its words is taken out by itself, and no
stop word is left at all. -/
theorem phrases_survive_spread {t : Text} (hword : word ∈ commandWords)
    (hblank : (Text.label? word).isSome) (hcollapsed : Text.collapse word = word) :
    (StandsAlone word (ofText t commandWords) ↔
        ∃ spread, Text.IsSpread word spread ∧ StandsAlone spread (remainder t commandWords)) ∧
      (isPhrase word → ¬ StandsAlone word (remainder t commandWords)) ∧
      (∀ part ∈ Text.words word, part ∈ commandWords ++ Lexicon.stopWords → isPhrase part →
        ¬ StandsAlone word (ofText t commandWords)) ∧
      ∀ stop ∈ Lexicon.stopWords, ¬ StandsAlone stop (ofText t commandWords) := by
  have hmem : word ∈ fragments commandWords :=
    mem_fragments.mpr ⟨List.mem_append_left _ hword, hblank⟩
  refine ⟨?_, fun hphrase => not_standsAlone_remainder hmem hphrase t, ?_,
    fun stop hstop => not_standsAlone_of_mem_stopWords hstop t⟩
  · rw [ofText_eq_collapse]
    exact Text.standsAlone_collapse_iff (ne_nil_of_mem_fragments hmem) hcollapsed
  · exact fun part hpart hlist hphrase => not_standsAlone_of_mem_words hpart hlist hphrase t

theorem phrases_survive_spread_compare_at :
    utf8 "compare at" ∈ Lexicon.Price.commandWords ∧
    (Text.label? (utf8 "compare at")).isSome ∧
    Text.collapse (utf8 "compare at") = utf8 "compare at" ∧
    (∃ spread, Text.IsSpread (utf8 "compare at") spread ∧
      StandsAlone spread
        (remainder (utf8 "set compare  at price of mugs to $5") Lexicon.Price.commandWords)) ∧
    ¬ StandsAlone (utf8 "compare at")
      (remainder (utf8 "set compare  at price of mugs to $5") Lexicon.Price.commandWords) := by
  have hmem : utf8 "compare at" ∈ Lexicon.Price.commandWords := by decide
  have hblank : (Text.label? (utf8 "compare at")).isSome := by decide +kernel
  have hcollapsed : Text.collapse (utf8 "compare at") = utf8 "compare at" := by decide +kernel
  have hresidue : ofText (utf8 "set compare  at price of mugs to $5") Lexicon.Price.commandWords =
      utf8 "compare at" ++ utf8 " mugs" := by
    decide +kernel
  obtain ⟨hspread, hwritten, -⟩ := phrases_survive_spread
    (t := utf8 "set compare  at price of mugs to $5") hmem hblank hcollapsed
  refine ⟨hmem, hblank, hcollapsed, hspread.mp ?_, hwritten (by decide +kernel)⟩
  rw [hresidue]
  exact ⟨[], utf8 " mugs", ⟨utf8 "compare at", rfl, rfl⟩, rfl, by decide +kernel⟩

/-- The words stand further apart in the request than in the phrase, so the phrase is left. -/
theorem phrase_in_residue :
    ofText (utf8 "set compare  at price of mugs to $5") Lexicon.Price.commandWords =
      utf8 "compare at mugs" ∧
    ¬ ∀ (t : Text) (commandWords : List Text),
      (∀ word ∈ commandWords, (Text.label? word).isSome ∧ Text.collapse word = word) →
      ∀ word ∈ commandWords ++ Lexicon.stopWords, ¬ StandsAlone word (ofText t commandWords) := by
  have hresidue : ofText (utf8 "set compare  at price of mugs to $5") Lexicon.Price.commandWords =
      utf8 "compare at mugs" := by
    decide +kernel
  refine ⟨hresidue, fun h => ?_⟩
  have hgone := h (utf8 "set compare  at price of mugs to $5") Lexicon.Price.commandWords
    (by decide +kernel) (utf8 "compare at") (List.mem_append_left _ (by decide))
  rw [hresidue] at hgone
  exact hgone
    ⟨[], utf8 " mugs", ⟨utf8 "compare at", by decide +kernel, rfl⟩, rfl, by decide +kernel⟩

end Residue

end CatalogEdit
