import CatalogEdit.Proofs.Text.Removal
import CatalogEdit.Proofs.Text.Trim
import CatalogEdit.Proofs.Text.Words
import CatalogEdit.Residue

/-!
# The residue in a single pass

The words of a command are taken out of a request one after the other, the longest first. For words
without punctuation the order decides nothing: the residue is what one pass leaves that takes out
every word on the list, and only the set of the words on it counts.

## Main definitions

* `Residue.isTaken` — the words that are taken out of a request.

## Main statements

* `Residue.mem_fragments` — what is removed, apart from its order.
* `Residue.residue_is_single_pass` — the residue, its words, and what it depends on.
-/

namespace CatalogEdit.Residue

open Text (lower)

/-- Whether a word is a stop word or a word of the command, in any case of its letters. -/
def isTaken (commandWords : List Text) (run : Text) : Bool :=
  (commandWords ++ Lexicon.stopWords).any fun word => lower run == lower word

/-! ## Fragments -/

theorem insertByLength_perm (t : Text) (texts : List Text) :
    (insertByLength t texts).Perm (t :: texts) := by
  induction texts with
  | nil => rfl
  | cons u texts ih =>
    rw [insertByLength]
    split
    next => rfl
    next => exact (ih.cons u).trans (List.Perm.swap t u texts)

theorem longestFirst_perm (texts : List Text) : (longestFirst texts).Perm texts := by
  induction texts with
  | nil => rfl
  | cons t texts ih => exact (insertByLength_perm t (longestFirst texts)).trans (ih.cons t)

theorem mem_fragments {commandWords : List Text} {word : Text} :
    word ∈ fragments commandWords ↔
      word ∈ commandWords ++ Lexicon.stopWords ∧ (Text.label? word).isSome := by
  rw [fragments, List.mem_filter, (longestFirst_perm _).mem_iff]

theorem isWord_of_mem_stopWords :
    ∀ word ∈ Lexicon.stopWords, ∀ b ∈ word, Byte.isWord b := by
  decide +kernel

/-- A word of the text is removed exactly if it is on the list: the blank entries, which are left
out, are no words. -/
theorem any_fragments {commandWords : List Text} {run : Text} (hrun : Text.isWordRun run) :
    ((fragments commandWords).any fun word => lower run == lower word) =
      isTaken commandWords run := by
  refine Bool.eq_iff_iff.mpr ?_
  simp only [isTaken, List.any_eq_true, mem_fragments]
  refine ⟨fun ⟨word, hmem, heq⟩ => ⟨word, hmem.1, heq⟩, fun ⟨word, hmem, heq⟩ => ?_⟩
  refine ⟨word, ⟨hmem, Option.isSome_iff_ne_none.mpr fun hnone => ?_⟩, heq⟩
  have hblank := Text.forall_mem_of_lower_eq Byte.ignoresCase_isBlank (beq_iff_eq.mp heq)
    (Text.label?_eq_none.mp hnone)
  cases run with
  | nil => contradiction
  | cons b run =>
    have hb := Text.isWord_of_isBlank (hblank b List.mem_cons_self)
    rw [show Byte.isWord b = true from hrun] at hb
    contradiction

/-! ## Words without punctuation -/

section

variable {commandWords : List Text}
  (h : ∀ word ∈ commandWords, (∀ b ∈ word, Byte.isBlank b) ∨ ∀ b ∈ word, Byte.isWord b)
include h

theorem isWord_of_mem_fragments {word : Text} (hword : word ∈ fragments commandWords) :
    word ≠ [] ∧ ∀ b ∈ word, Byte.isWord b := by
  obtain ⟨hmem, hsome⟩ := mem_fragments.mp hword
  have hblank : ¬ ∀ b ∈ word, Byte.isBlank b := fun hall => by
    simp [Text.label?_eq_none.mpr hall] at hsome
  refine ⟨fun hnil => hblank (by simp [hnil]), ?_⟩
  rcases List.mem_append.mp hmem with hmem | hmem
  · exact (h word hmem).resolve_left hblank
  · exact isWord_of_mem_stopWords word hmem

theorem removeWords_fragments (t : Text) :
    Text.removeWords (fragments commandWords) t = Text.blankRuns (isTaken commandWords) t := by
  rw [Text.removeWords_eq_blankRuns (fun _ => isWord_of_mem_fragments h)]
  exact Text.blankRuns_congr (fun _ => any_fragments) t

end

theorem isTaken_congr {commandWords others : List Text}
    (h : ∀ word, word ∈ others ↔ word ∈ commandWords) : isTaken others = isTaken commandWords := by
  funext run
  refine Bool.eq_iff_iff.mpr ?_
  simp only [isTaken, List.any_eq_true, List.mem_append, h]

/-- For words of the command that are blank or made of word bytes, the residue is what a single pass
leaves that puts a space for every stop word and every word of the command. So the words of the
residue are the others, as they were and in their order, and neither the order of the words of the
command nor their number matters. -/
theorem residue_is_single_pass {commandWords : List Text}
    (h : ∀ word ∈ commandWords, (∀ b ∈ word, Byte.isBlank b) ∨ ∀ b ∈ word, Byte.isWord b)
    (t : Text) :
    ofText t commandWords = Text.collapse (Text.blankRuns (isTaken commandWords) (strip t)) ∧
    Text.wordRuns (ofText t commandWords) =
      (Text.wordRuns (strip t)).filter (fun run => !isTaken commandWords run) ∧
    ∀ others : List Text, (∀ word, word ∈ others ↔ word ∈ commandWords) →
      ofText t others = ofText t commandWords := by
  refine ⟨?_, ?_, fun others hothers => ?_⟩
  · rw [ofText, removeWords_fragments h]
  · rw [ofText, removeWords_fragments h, Text.wordRuns_collapse, Text.wordRuns_blankRuns]
  · have hothersWords : ∀ word ∈ others,
        (∀ b ∈ word, Byte.isBlank b) ∨ ∀ b ∈ word, Byte.isWord b :=
      fun word hword => h word ((hothers word).mp hword)
    rw [ofText, ofText, removeWords_fragments h, removeWords_fragments hothersWords,
      isTaken_congr hothers]

theorem residue_is_single_pass_archive :
    (∀ word ∈ [utf8 "archive", utf8 " "],
      (∀ b ∈ word, Byte.isBlank b) ∨ ∀ b ∈ word, Byte.isWord b) ∧
    ofText (utf8 "Archive the archived mugs") [utf8 "archive", utf8 " "] = utf8 "archived mugs" ∧
    ofText (utf8 "Archive the archived mugs") [utf8 " ", utf8 "archive", utf8 "archive"] =
      utf8 "archived mugs" := by
  have h : ∀ word ∈ [utf8 "archive", utf8 " "],
      (∀ b ∈ word, Byte.isBlank b) ∨ ∀ b ∈ word, Byte.isWord b := by
    decide +kernel
  obtain ⟨hpass, -, hsame⟩ := residue_is_single_pass h (utf8 "Archive the archived mugs")
  have hmugs : ofText (utf8 "Archive the archived mugs") [utf8 "archive", utf8 " "] =
      utf8 "archived mugs" :=
    hpass.trans (by decide +kernel)
  exact ⟨h, hmugs, (hsame _ fun word => by simp [or_comm]).trans hmugs⟩

end CatalogEdit.Residue
