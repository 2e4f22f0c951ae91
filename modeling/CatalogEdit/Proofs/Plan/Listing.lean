import CatalogEdit.Proofs.Mention.Listing
import CatalogEdit.Proofs.Plan.Keyword
import CatalogEdit.Proofs.Residue.Part

/-!
# Listed tags and the items they are meant for

Tags in quotes are taken out of a request before the items are selected. A list of tags without
quotes is not: what is left of it once signs, words of the command and stop words are gone stays in
the residue. So the list decides nothing about the items exactly if nothing is left of it, or if the
residue is too short to select anything, with the list as well as without it.

## Main statements

* `Selection.ofText_eq_iff` — when two texts select the same items.
* `TagRequest.listed_tags_reach_selection` — when a list of tags leaves the selection as it is.
* `TagRequest.listed_tags_in_title` — a tag that selects the items it is to be removed from.
-/

namespace CatalogEdit

open Lexicon.Tags (commandWords)
open Mention (IsTagListing listedIn)

/-- Two texts select the same items if they leave the same residue, or both too little of it. -/
theorem Selection.ofText_eq_iff {t u : Text} {commandWords : List Text} :
    Selection.ofText t commandWords = Selection.ofText u commandWords ↔
      Residue.ofText t commandWords = Residue.ofText u commandWords ∨
        (Residue.ofText t commandWords).length < minTitleLength ∧
          (Residue.ofText u commandWords).length < minTitleLength := by
  simp only [Selection.ofText]
  generalize Residue.ofText t commandWords = residue
  generalize Residue.ofText u commandWords = other
  by_cases hresidue : minTitleLength ≤ residue.length
  · rw [if_pos hresidue]
    by_cases hother : minTitleLength ≤ other.length
    · simp [hother, Nat.not_lt.mpr hresidue]
    · have hne : residue ≠ other := by
        rintro rfl
        exact hother hresidue
      simp [hother, hne, Nat.not_lt.mpr hresidue]
  · rw [if_neg hresidue]
    by_cases hother : minTitleLength ≤ other.length
    · have hne : residue ≠ other := by
        rintro rfl
        exact hresidue hother
      simp [hother, hne, Nat.not_lt.mpr hother]
    · simp [hother, Nat.not_le.mp hresidue, Nat.not_le.mp hother]

/-! ## The parts of a request -/

theorem Lexicon.Tags.isAsciiWord_of_mem_commandWords :
    ∀ word ∈ commandWords, ∀ b ∈ word, Byte.isAsciiWord b := by
  decide +kernel

/-- A list of tags leaves the residue as it is exactly if it leaves no residue of its own. -/
theorem Residue.ofText_eq_iff_of_isTagListing {t pre word listing post : Text} (hplain : t.IsPlain)
    (h : IsTagListing t pre word listing post) (hne : listing ≠ []) :
    ofText t commandWords = ofText (pre ++ (word ++ Byte.space :: post)) commandWords ↔
      ofText listing commandWords = [] := by
  have heq : t = pre ++ word ++ (listing ++ post) := by rw [h.stands.eq, List.append_assoc]
  obtain ⟨hfront, hinside, hback⟩ : (pre ++ word).IsPlain ∧ listing.IsPlain ∧ post.IsPlain := by
    rw [heq] at hplain
    simpa only [Text.IsPlain, List.forall_mem_append] using hplain
  have hhead : Mention.isAsciiEdge listing.head? := by
    cases listing with
    | nil => contradiction
    | cons b listing => exact h.stands.after
  have hlast : post = [] ∨ Mention.isAsciiEdge listing.getLast? :=
    h.exists_next.imp_right fun ⟨_, _, hnext⟩ => hnext.before
  have hspace : pre ++ (word ++ Byte.space :: post) = pre ++ word ++ Byte.space :: post :=
    (List.append_assoc _ _ _).symm
  rw [heq, hspace]
  exact ofText_append_eq_iff Lexicon.Tags.isAsciiWord_of_mem_commandWords hfront hinside hback hne
    (h.stands.isTagWord.exists_getLast?_append pre) h.isLetter_head? hhead hlast

example : Residue.ofText (utf8 " 2024, 50% & all") commandWords = [] := by decide +kernel

/-! ## The plan -/

namespace TagRequest

variable {t : Text} {p : Plan}

theorem eq_plan_of_respond (h : respond t = .plan p) :
    Mention.tags t ≠ [] ∧ p = plan t (Mention.tags t) := by
  rw [respond] at h
  split at h
  next => contradiction
  next hne => exact ⟨by simpa using hne, (Response.plan.inj h).symm⟩

/-- The tags of a request without quotes are those that are listed behind the first word `tag` or
`tags`. The items are those that the request selects with a space for that list exactly if nothing
is left of the list, or too little of the request to select anything, with the list or without. -/
theorem listed_tags_reach_selection (h : t.IsPlain) (hp : respond t = .plan p) :
    (∃ pre word listing post, IsTagListing t pre word listing post) ∧
    ∀ pre word listing post, IsTagListing t pre word listing post →
      p.edit.change = .tags { mode := TagMode.ofText t, values := listedIn listing } ∧
      (p.selection = Selection.ofText (pre ++ (word ++ Byte.space :: post)) commandWords ↔
        Residue.ofText listing commandWords = [] ∨
          (Residue.ofText t commandWords).length < Selection.minTitleLength ∧
            (Residue.ofText (pre ++ (word ++ Byte.space :: post)) commandWords).length <
              Selection.minTitleLength) := by
  obtain ⟨hne, rfl⟩ := eq_plan_of_respond hp
  rw [Mention.tags_of_isPlain h] at hne ⊢
  constructor
  · cases hsegment : Mention.tagSegment? t with
    | none => simp [Mention.listedTags, hsegment] at hne
    | some listing =>
      obtain ⟨pre, word, post, hlisting⟩ := Mention.tagSegment?_eq_some_iff.mp hsegment
      exact ⟨pre, word, listing, post, hlisting⟩
  · intro pre word listing post hlisting
    rw [Mention.listedTags_eq hlisting.tagSegment?_eq] at hne ⊢
    have hlistingNe : listing ≠ [] := by
      rintro rfl
      exact hne rfl
    refine ⟨rfl, ?_⟩
    rw [← Residue.ofText_eq_iff_of_isTagListing h hlisting hlistingNe, ← Selection.ofText_eq_iff,
      plan]

theorem listed_tags_reach_selection_mugs : ∃ p : Plan,
    Text.IsPlain (utf8 "Add to the mugs tags 2024, 50%") ∧
    respond (utf8 "Add to the mugs tags 2024, 50%") = .plan p ∧
    IsTagListing (utf8 "Add to the mugs tags 2024, 50%") (utf8 "Add to the mugs ") (utf8 "tags")
      (utf8 " 2024, 50%") [] ∧
    p.edit.change = .tags { mode := .add, values := [utf8 "2024", utf8 "50%"] } ∧
    p.selection = Selection.ofText
      (utf8 "Add to the mugs " ++ (utf8 "tags" ++ [Byte.space])) commandWords ∧
    p.selection.titleContains = some (utf8 "mugs") := by
  have hplain : Text.IsPlain (utf8 "Add to the mugs tags 2024, 50%") := by decide +kernel
  have hplan : respond (utf8 "Add to the mugs tags 2024, 50%") = .plan
      (plan (utf8 "Add to the mugs tags 2024, 50%") [utf8 "2024", utf8 "50%"]) := by
    decide +kernel
  have hlisting : IsTagListing (utf8 "Add to the mugs tags 2024, 50%") (utf8 "Add to the mugs ")
      (utf8 "tags") (utf8 " 2024, 50%") [] :=
    { stands := ⟨by decide +kernel, by decide +kernel, by decide +kernel, by decide +kernel⟩
      first := by decide +kernel
      stops := .inl rfl
      inside := by decide +kernel }
  have hselection := ((listed_tags_reach_selection hplain hplan).2 _ _ _ _ hlisting).2
  exact ⟨_, hplain, hplan, hlisting, by decide +kernel, hselection.mpr (.inl (by decide +kernel)),
    by decide +kernel⟩

/-- A tag that is to be removed from all products selects those that are named after it. -/
theorem listed_tags_in_title : ∃ p : Plan,
    Text.IsPlain (utf8 "delete tags winter") ∧
    respond (utf8 "delete tags winter") = .plan p ∧
    IsTagListing (utf8 "delete tags winter") (utf8 "delete ") (utf8 "tags") (utf8 " winter") [] ∧
    p.selection.titleContains = some (utf8 "winter") ∧
    p.selection ≠
      Selection.ofText (utf8 "delete " ++ (utf8 "tags" ++ [Byte.space])) commandWords := by
  refine ⟨plan (utf8 "delete tags winter") [utf8 "winter"], by decide +kernel, by decide +kernel,
    ⟨⟨⟨?_, ?_, ?_, ?_⟩, ?_, .inl rfl⟩, ?_⟩, by decide +kernel, by decide +kernel⟩
  all_goals decide +kernel

end TagRequest

end CatalogEdit
