import CatalogEdit.Proofs.Plan.Sound
import CatalogEdit.Proofs.Residue.SinglePass
import CatalogEdit.Proofs.Text.Alone

/-!
# The words of a command do not select items

The words that decide what is done are recognised at the start of any word, but only whole words are
taken out of a request. So none of them stands alone in the title that selects items, while a longer
word that begins with one of them is kept. Phrases are taken out before blanks are collapsed.

## Main definitions

* `Lexicon.decidingWords` — the words that decide what is done in a request about a topic.
* `Residue.remainder` — the residue before its blanks are collapsed.

## Main statements

* `Residue.not_standsAlone_remainder` — what is taken out of a request is gone.
* `deciding_words_do_not_select` — no deciding word stands alone in the title of a selection.
-/

namespace CatalogEdit

/-- The lists of words that decide what is done in a request about a topic. -/
def Lexicon.decidingWords : Topic → List (List Text)
  | .price => [Price.increase, Price.decrease, Price.set, Price.price, Price.compareAt]
  | .tags => [Tags.replace, Tags.remove]
  | .inventory => [Inventory.increase, Inventory.decrease]
  | .status => statusWords.map (·.2)

/-! ## The residue -/

namespace Residue

/-- What is left of a request without the words of the command, its blanks as they are. -/
def remainder (t : Text) (commandWords : List Text) : Text :=
  Text.removeWords (fragments commandWords) (strip t)

theorem ofText_eq_collapse (t : Text) (commandWords : List Text) :
    ofText t commandWords = Text.collapse (remainder t commandWords) := rfl

variable {commandWords : List Text} {word : Text}

theorem ne_nil_of_mem_fragments (h : word ∈ fragments commandWords) : word ≠ [] := by
  rintro rfl
  exact absurd (mem_fragments.mp h).2 (by decide)

/-- A word or phrase of the command does not stand alone in what is left. -/
theorem not_standsAlone_remainder (hword : word ∈ fragments commandWords)
    (hphrase : Text.isPhrase word) (t : Text) :
    ¬ Text.StandsAlone word (remainder t commandWords) :=
  Text.not_standsAlone_removeWords (fun _ => ne_nil_of_mem_fragments) hword hphrase (strip t)

/-- Collapsing blanks brings no word about that holds none. -/
theorem not_standsAlone_ofText (hword : word ∈ fragments commandWords)
    (hphrase : Text.isPhrase word) (hblank : Text.IsBlankFree word) (t : Text) :
    ¬ Text.StandsAlone word (ofText t commandWords) := by
  rw [ofText_eq_collapse, Text.standsAlone_collapse hblank]
  exact not_standsAlone_remainder hword hphrase t

example : ofText (utf8 "Set the setting") Lexicon.Price.commandWords = utf8 "setting" := by
  decide +kernel

end Residue

/-! ## Selections -/

/-- The text that the items are selected by: the name of a place says nothing about them. -/
def Topic.selecting (t : Text) : Topic → Text
  | .price | .tags | .status => t
  | .inventory => InventoryRequest.withoutPlace t

/-- A selection by title is one by the residue of the request. -/
theorem Selection.ofText_eq_of_title {t title : Text} {commandWords : List Text}
    (h : (Selection.ofText t commandWords).titleContains = some title) :
    Residue.ofText t commandWords = title := by
  simp only [Selection.ofText] at h
  split at h
  next => exact Option.some.inj h
  next => contradiction

/-- All selections in the response are made from the text of the request in the same way. -/
theorem Topic.eq_ofText_of_mem_selections {t : Text} {topic : Topic} {s : Selection}
    (h : s ∈ (topic.respond t).selections) :
    s = Selection.ofText (topic.selecting t) (Lexicon.commandWords topic) := by
  cases topic with
  | price =>
    simp only [respond, PriceRequest.respond] at h
    rw [selecting, Lexicon.commandWords]
    split at h
    next => simpa only [Response.selections, PriceRequest.plan, List.mem_singleton] using h
    next => exact absurd h List.not_mem_nil
  | tags =>
    simp only [respond, TagRequest.respond] at h
    rw [selecting, Lexicon.commandWords]
    split at h
    next => exact absurd h List.not_mem_nil
    next => simpa only [Response.selections, TagRequest.plan, List.mem_singleton] using h
  | inventory =>
    simp only [respond, InventoryRequest.respond] at h
    rw [selecting, Lexicon.commandWords]
    split at h
    next =>
      simpa only [Response.selections, InventoryRequest.plan, InventoryRequest.selection,
        List.mem_singleton] using h
    next =>
      simpa only [Response.selections, InventoryRequest.draft, InventoryRequest.selection,
        Option.bind_some, Option.toList_some, List.mem_singleton] using h
    next => exact absurd h List.not_mem_nil
    next => exact absurd h List.not_mem_nil
  | status =>
    simp only [respond, StatusRequest.respond] at h
    rw [selecting, Lexicon.commandWords]
    split at h
    next => simpa only [Response.selections, StatusRequest.plan, List.mem_singleton] using h
    next => exact absurd h List.not_mem_nil

theorem Topic.selection_of_respond {t : Text} {topic : Topic} {p : Plan}
    (h : topic.respond t = .plan p) :
    p.selection = Selection.ofText (topic.selecting t) (Lexicon.commandWords topic) :=
  eq_ofText_of_mem_selections (by simp [h, Response.selections])

/-! ## Deciding words -/

/-- Every word that decides belongs to the command. -/
theorem Lexicon.mem_fragments_of_mem_decidingWords :
    ∀ topic : Topic, ∀ words ∈ decidingWords topic, ∀ word ∈ words,
      word ∈ Residue.fragments (commandWords topic) ∧ Text.isPhrase word := by
  intro topic
  cases topic <;> decide +kernel

/-- No word that decides what is done stands alone in the title that selects items. A phrase of two
words is taken out as it is written, before blanks are collapsed. -/
theorem deciding_words_do_not_select {t title : Text} {topic : Topic} {s : Selection}
    (hs : s ∈ (topic.respond t).selections) (htitle : s.titleContains = some title) :
    title = Text.collapse
      (Residue.remainder (topic.selecting t) (Lexicon.commandWords topic)) ∧
    ∀ words ∈ Lexicon.decidingWords topic, ∀ word ∈ words,
      ¬ Text.StandsAlone word
        (Residue.remainder (topic.selecting t) (Lexicon.commandWords topic)) ∧
      (Text.IsBlankFree word → ¬ Text.StandsAlone word title) := by
  rw [Topic.eq_ofText_of_mem_selections hs] at htitle
  obtain rfl := Selection.ofText_eq_of_title htitle
  refine ⟨rfl, fun words hwords word hword => ?_⟩
  obtain ⟨hmem, hphrase⟩ :=
    Lexicon.mem_fragments_of_mem_decidingWords topic words hwords word hword
  exact ⟨Residue.not_standsAlone_remainder hmem hphrase _,
    fun hblank => Residue.not_standsAlone_ofText hmem hphrase hblank _⟩

theorem deciding_words_do_not_select_stock :
    { titleContains := some (utf8 "ceramic bowls") } ∈
      (Topic.inventory.respond (utf8 "Increase stock of ceramic bowls by 10")).selections ∧
    ∀ words ∈ Lexicon.decidingWords .inventory, ∀ word ∈ words,
      ¬ Text.StandsAlone word (Residue.remainder
        (Topic.selecting (utf8 "Increase stock of ceramic bowls by 10") .inventory)
        (Lexicon.commandWords .inventory)) ∧
      (Text.IsBlankFree word → ¬ Text.StandsAlone word (utf8 "ceramic bowls")) := by
  have hs : { titleContains := some (utf8 "ceramic bowls") } ∈
      (Topic.inventory.respond (utf8 "Increase stock of ceramic bowls by 10")).selections := by
    decide +kernel
  exact ⟨hs, (deciding_words_do_not_select hs rfl).2⟩

/-- A longer word is no deciding word although it begins with one and decides like one. A phrase
with two blanks is none either; it turns into one when blanks are collapsed. -/
theorem deciding_words_in_titles :
    (∃ s ∈ (Topic.price.respond (utf8 "increased prices by 5%")).selections,
      s.titleContains = some (utf8 "increased") ∧
      Text.hasAnyWordStart Lexicon.Price.increase (utf8 "increased")) ∧
    ∃ s ∈ (Topic.price.respond (utf8 "set compare  at price to $5")).selections,
      s.titleContains = some (utf8 "compare at") ∧
      Text.hasAnyWordStart Lexicon.Price.compareAt (utf8 "compare at") := by
  decide +kernel

end CatalogEdit
