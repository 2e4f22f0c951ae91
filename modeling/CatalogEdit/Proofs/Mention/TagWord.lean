import CatalogEdit.Proofs.Mention.Case
import CatalogEdit.Proofs.Text.Removal
import CatalogEdit.Proofs.Text.Scan

/-!
# The word before a list of tags

Listed tags stand behind the first word `tag` or `tags` of a request and reach to the next such word
or to the end. Here a word ends where no ASCII letter, digit or underscore follows, so a character
outside ASCII may stand right beside it.

## Main definitions

* `Mention.TagWordBetween`, `Mention.HasTagWord` — the word `tag` or `tags` in a text.
* `Mention.IsBehindTagWord` — the part of a text behind the first of these words.
* `Mention.IsTagListing` — that part up to the next one.

## Main statements

* `Mention.tagWord_eq_some_iff` — what is recognised as the word.
* `Mention.tagSegment?_eq_some_iff` — what is read as the list of tags.
-/

namespace CatalogEdit.Mention

open Text (lower)

/-! ## Edges -/

@[simp] theorem isAsciiEdge_none : isAsciiEdge none = true := rfl

@[simp] theorem isAsciiEdge_some (b : UInt8) : isAsciiEdge (some b) = !Byte.isAsciiWord b := rfl

theorem isAsciiEdge_or_iff {first second : Option UInt8} (h : isAsciiEdge second) :
    isAsciiEdge (first.or second) ↔ isAsciiEdge first := by
  cases first with
  | none => simpa using h
  | some b => simp

theorem isAsciiWord_of_isLetter {b : UInt8} : Byte.isLetter b → Byte.isAsciiWord b := by grind

/-! ## The word -/

/-- The word `tag` or `tags`, in any case of its letters. -/
def IsTagWord (word : Text) : Prop := lower word ∈ ["tags", "tag"].map utf8

/-- The word `tag` or `tags` stands in `t` between `pre` and `post`, as a word of its own. -/
structure TagWordBetween (t pre word post : Text) : Prop where
  eq : t = pre ++ (word ++ post)
  isTagWord : IsTagWord word
  before : isAsciiEdge pre.getLast?
  after : isAsciiEdge post.head?

/-- The word `tag` or `tags` stands somewhere in `t`. -/
def HasTagWord (t : Text) : Prop := ∃ pre word post, TagWordBetween t pre word post

variable {t pre word listing post gap rest : Text} {before : Option UInt8}

namespace IsTagWord

variable (h : IsTagWord word)
include h

theorem isLetter : ∀ b ∈ word, Byte.isLetter b := by
  have hkeywords : ∀ k ∈ ["tags", "tag"].map utf8, k = lower k ∧ ∀ b ∈ k, Byte.isLetter b := by
    decide +kernel
  obtain ⟨hlower, hletters⟩ := hkeywords _ h
  exact Text.forall_mem_of_lower_eq Byte.isLetter_lower hlower hletters

theorem ne_nil : word ≠ [] := by
  rintro rfl
  exact absurd h (by unfold IsTagWord; decide +kernel)

theorem exists_length_eq : ∃ n, word.length = n + 1 :=
  Nat.exists_eq_succ_of_ne_zero (mt List.length_eq_zero_iff.mp h.ne_nil)

theorem exists_getLast?_append (pre : Text) :
    ∃ b, (pre ++ word).getLast? = some b ∧ Byte.isLetter b :=
  ⟨word.getLast h.ne_nil, by
    rw [List.getLast?_append_of_ne_nil _ h.ne_nil, List.getLast?_eq_some_getLast h.ne_nil],
    h.isLetter _ (List.getLast_mem h.ne_nil)⟩

theorem not_isAsciiEdge_getLast?_append (pre : Text) :
    ¬ isAsciiEdge (pre ++ word).getLast? := by
  obtain ⟨b, hb, hletter⟩ := h.exists_getLast?_append pre
  simp [hb, isAsciiWord_of_isLetter hletter]

theorem not_isAsciiEdge_head?_append (rest : Text) : ¬ isAsciiEdge (word ++ rest).head? := by
  cases word with
  | nil => exact absurd rfl h.ne_nil
  | cons b word => simp [isAsciiWord_of_isLetter (h.isLetter b List.mem_cons_self)]

/-- The word is all that is read up to the next edge. -/
theorem takeWhile_append (hrest : isAsciiEdge rest.head?) :
    (word ++ rest).takeWhile Byte.isAsciiWord = word := by
  refine Text.takeWhile_append_of_head?
    (fun b hb => isAsciiWord_of_isLetter (h.isLetter b hb)) fun b hb => ?_
  rw [Option.mem_def.mp hb] at hrest
  simpa using hrest

end IsTagWord

/-- The recogniser sees the word with an edge on either side, and nothing else. -/
theorem tagWord_eq_some_iff {width : Nat} :
    tagWord before t = some ((), width) ↔
      isAsciiEdge before ∧ ∃ word rest, t = word ++ rest ∧ IsTagWord word ∧
        isAsciiEdge rest.head? ∧ width = word.length := by
  have hsound : ∀ width, tagWord before t = some ((), width) →
      isAsciiEdge before ∧ ∃ word rest, t = word ++ rest ∧ IsTagWord word ∧
        isAsciiEdge rest.head? ∧ width = word.length := by
    intro width h
    simp only [tagWord] at h
    split at h
    next hbefore =>
      obtain ⟨k, hfind, hwidth⟩ := Option.map_eq_some_iff.mp h
      obtain rfl : k.length = width := (Prod.mk.inj hwidth).2
      have hstarts := List.find?_some hfind
      rw [Bool.and_eq_true, Text.startsWith_iff] at hstarts
      obtain ⟨⟨word, rest, rfl, hword⟩, hafter⟩ := hstarts
      have hlength := Text.length_eq_of_lower_eq hword
      rw [← hlength, List.drop_left] at hafter
      refine ⟨hbefore, word, rest, rfl, ?_, hafter, hlength.symm⟩
      have hkeywords : ∀ k ∈ ["tags", "tag"].map utf8, lower k = k := by decide +kernel
      have hmem := List.mem_of_find?_eq_some hfind
      rw [IsTagWord, hword, hkeywords k hmem]
      exact hmem
    next => contradiction
  refine ⟨hsound width, ?_⟩
  rintro ⟨hbefore, word, rest, rfl, hword, hafter, rfl⟩
  cases hfound : tagWord before (word ++ rest) with
  | none =>
    simp only [tagWord, hbefore, if_true, Option.map_eq_none_iff, List.find?_eq_none] at hfound
    refine absurd ?_ (hfound _ hword)
    have hstarts : Text.startsWith word (word ++ rest) := Text.startsWith_iff.mpr ⟨_, _, rfl, rfl⟩
    simp [hstarts, hafter]
  | some found =>
    -- Where the word ends is seen from the text, so no other keyword can be found there.
    obtain ⟨-, word', rest', heq, hword', hafter', hwidth⟩ := hsound found.2 hfound
    have hsame : word' = word := by
      rw [← hword'.takeWhile_append hafter', ← heq, hword.takeWhile_append hafter]
    rw [← hsame, ← hwidth]

/-- A gap before a word or before the end is a text without the word. -/
theorem isGap_tagWord_iff (hbefore : isAsciiEdge before)
    (hrest : rest = [] ∨ isAsciiEdge gap.getLast?) :
    Text.IsGap tagWord before gap rest ↔ ¬ HasTagWord gap := by
  constructor
  · rintro h ⟨pre, word, post, rfl, hword, hpre, hpost⟩
    have hafter : isAsciiEdge (post ++ rest).head? := by
      cases post with
      | cons b post => exact hpost
      | nil =>
        rcases hrest with rfl | hlast
        · rfl
        · rw [List.append_nil] at hlast
          exact absurd hlast (hword.not_isAsciiEdge_getLast?_append pre)
    obtain ⟨width, hwidth⟩ := hword.exists_length_eq
    refine h pre (word ++ post) rfl (by simp [hword.ne_nil]) () width ?_
    exact tagWord_eq_some_iff.mpr ⟨(isAsciiEdge_or_iff hbefore).mpr hpre, word, post ++ rest,
      List.append_assoc _ _ _, hword, hafter, hwidth.symm⟩
  · rintro h x y rfl hne ⟨⟩ width hfound
    obtain ⟨hx, word, rest', heq, hword, hafter, -⟩ := tagWord_eq_some_iff.mp hfound
    rw [isAsciiEdge_or_iff hbefore] at hx
    rcases List.append_eq_append_iff.mp heq with ⟨beyond, rfl, hbeyond⟩ | ⟨post, rfl, hpost⟩
    · -- The word would reach beyond the gap, but the gap ends at an edge.
      have hletter : ¬ isAsciiEdge (x ++ y).getLast? := by
        rw [List.getLast?_append_of_ne_nil _ hne, List.getLast?_eq_some_getLast hne]
        have hlast := hword.isLetter _ (List.mem_append_left _ (List.getLast_mem hne))
        simp [isAsciiWord_of_isLetter hlast]
      obtain rfl : rest = [] := hrest.resolve_right hletter
      obtain ⟨rfl, rfl⟩ := List.append_eq_nil_iff.mp hbeyond.symm
      exact h ⟨x, y, [], by simp, by simpa using hword, hx, rfl⟩
    · refine h ⟨x, word, post, rfl, hword, hx, ?_⟩
      cases post with
      | nil => rfl
      | cons b post => simpa [hpost] using hafter

/-! ## The part behind the word -/

/-- `listing` stands in `t` behind the first word `tag` or `tags`, and what follows it is the next
such word or nothing. -/
structure IsBehindTagWord (t pre word listing post : Text) : Prop where
  stands : TagWordBetween t pre word (listing ++ post)
  first : ¬ HasTagWord pre
  stops : post = [] ∨ ∃ next rest, TagWordBetween t (pre ++ (word ++ listing)) next rest

/-- `listing` reaches from the first word `tag` or `tags` of `t` to the next one or to the end. -/
structure IsTagListing (t pre word listing post : Text) : Prop
    extends IsBehindTagWord t pre word listing post where
  inside : ¬ HasTagWord listing

/-- The first word of a text that has one. -/
theorem HasTagWord.exists_first (h : HasTagWord t) :
    ∃ pre word post, TagWordBetween t pre word post ∧ ¬ HasTagWord pre := by
  rcases Text.exists_isGap tagWord none t with hgap | ⟨pre, rest, ⟨⟩, width, rfl, -, hgap, hfound⟩
  · exact absurd h ((isGap_tagWord_iff rfl (.inl rfl)).mp hgap)
  · obtain ⟨hpre, word, post, rfl, hword, hafter, -⟩ := tagWord_eq_some_iff.mp hfound
    rw [isAsciiEdge_or_iff rfl] at hpre
    exact ⟨pre, word, post, ⟨rfl, hword, hpre, hafter⟩, (isGap_tagWord_iff rfl (.inr hpre)).mp hgap⟩

/-- Right behind the word there is no edge, so a list that ends at an edge is not empty. -/
theorem isAsciiEdge_getLast?_listing (hword : IsTagWord word) :
    isAsciiEdge (pre ++ (word ++ listing)).getLast? ↔
      listing ≠ [] ∧ isAsciiEdge listing.getLast? := by
  by_cases hlisting : listing = []
  · subst hlisting
    simpa using hword.not_isAsciiEdge_getLast?_append pre
  · rw [← List.append_assoc, List.getLast?_append_of_ne_nil _ hlisting]
    simp [hlisting]

/-- The next word stands in what is left of the text as well. -/
theorem IsBehindTagWord.exists_next (h : IsBehindTagWord t pre word listing post) :
    post = [] ∨ ∃ next rest, TagWordBetween (listing ++ post) listing next rest := by
  refine h.stops.imp_right fun ⟨next, rest, hnext⟩ => ⟨next, rest, ?_⟩
  have hpost : listing ++ post = listing ++ (next ++ rest) := by
    have heq := h.stands.eq.symm.trans hnext.eq
    simpa using heq
  obtain ⟨-, hlast⟩ := (isAsciiEdge_getLast?_listing h.stands.isTagWord).mp hnext.before
  exact ⟨hpost, hnext.isTagWord, hlast, hnext.after⟩

theorem IsBehindTagWord.isLetter_head? (h : IsBehindTagWord t pre word listing post) :
    ∀ b ∈ post.head?, Byte.isLetter b := by
  intro b hb
  rcases h.exists_next with rfl | ⟨next, rest, heq, hnext, -, -⟩
  · contradiction
  · obtain rfl := List.append_cancel_left heq
    cases next with
    | nil => exact absurd rfl hnext.ne_nil
    | cons c next =>
      obtain rfl : c = b := by simpa using hb
      exact hnext.isLetter c List.mem_cons_self

theorem HasTagWord.exists_isTagListing (h : HasTagWord t) :
    ∃ pre word listing post, IsTagListing t pre word listing post := by
  obtain ⟨pre, word, rest, hstands, hfirst⟩ := h.exists_first
  by_cases hrest : HasTagWord rest
  · obtain ⟨listing, next, post, ⟨rfl, hnext, hbefore, hafter⟩, hinside⟩ := hrest.exists_first
    have hlisting : listing ≠ [] := by
      rintro rfl
      exact hnext.not_isAsciiEdge_head?_append post hstands.after
    refine ⟨pre, word, listing, next ++ post, ⟨hstands, hfirst, .inr ⟨next, post, ?_⟩⟩, hinside⟩
    refine ⟨by simp [hstands.eq], hnext, ?_, hafter⟩
    exact (isAsciiEdge_getLast?_listing hstands.isTagWord).mpr ⟨hlisting, hbefore⟩
  · exact ⟨pre, word, rest, [], ⟨by simpa using hstands, hfirst, .inl rfl⟩, hrest⟩

/-! ## The segment that is read -/

theorem piecesFrom_tagWord_of_not_hasTagWord (hbefore : isAsciiEdge before)
    (h : ¬ HasTagWord gap) : Text.piecesFrom tagWord 0 before gap = gap.map .byte := by
  have hgap := (isGap_tagWord_iff hbefore (.inl rfl)).mpr h
  simpa [Text.piecesFrom] using Text.piecesFrom_append_of_isGap hgap

/-- The scan keeps what stands before the first word and goes on behind the word. -/
theorem piecesFrom_tagWord_append (hbefore : isAsciiEdge before)
    (hstands : TagWordBetween t pre word post) (hfirst : ¬ HasTagWord pre) :
    Text.piecesFrom tagWord 0 before t =
      pre.map .byte ++ .found () :: Text.piecesFrom tagWord 0 (some Byte.space) post := by
  obtain ⟨rfl, hword, hpre, hafter⟩ := hstands
  obtain ⟨width, hwidth⟩ := hword.exists_length_eq
  have hfound : tagWord (pre.getLast?.or before) (word ++ post) = some ((), width + 1) :=
    tagWord_eq_some_iff.mpr
      ⟨(isAsciiEdge_or_iff hbefore).mpr hpre, word, post, rfl, hword, hafter, hwidth.symm⟩
  rw [Text.piecesFrom_append_of_isGap ((isGap_tagWord_iff hbefore (.inr hpre)).mpr hfirst),
    Text.piecesFrom_of_eq_some (by simp [hword.ne_nil]) hfound, ← hwidth, List.drop_left]

theorem IsTagListing.tagSegment?_eq (h : IsTagListing t pre word listing post) :
    tagSegment? t = some listing := by
  rw [tagSegment?, Text.stretches, Text.pieces, piecesFrom_tagWord_append rfl h.stands h.first,
    Text.foldr_cut_found, List.getElem?_cons_succ]
  rcases h.exists_next with rfl | ⟨next, rest, hnext⟩
  · rw [List.append_nil, piecesFrom_tagWord_of_not_hasTagWord rfl h.inside,
      Text.foldr_cut_map_byte, List.append_nil]
    rfl
  · rw [piecesFrom_tagWord_append rfl hnext h.inside, Text.foldr_cut_found]
    rfl

theorem tagSegment?_eq_none (h : ¬ HasTagWord t) : tagSegment? t = none := by
  rw [tagSegment?, Text.stretches, Text.pieces, piecesFrom_tagWord_of_not_hasTagWord rfl h,
    Text.foldr_cut_map_byte]
  rfl

/-- What is read as the list of tags is what stands between the first word and the next one or the
end. -/
theorem tagSegment?_eq_some_iff :
    tagSegment? t = some listing ↔ ∃ pre word post, IsTagListing t pre word listing post := by
  constructor
  · intro h
    by_cases hword : HasTagWord t
    · obtain ⟨pre, word, listing', post, hlisting⟩ := hword.exists_isTagListing
      obtain rfl := Option.some.inj (h.symm.trans hlisting.tagSegment?_eq)
      exact ⟨pre, word, post, hlisting⟩
    · rw [tagSegment?_eq_none hword] at h
      contradiction
  · rintro ⟨pre, word, post, h⟩
    exact h.tagSegment?_eq

theorem hasTagWord_iff_isSome : HasTagWord t ↔ (tagSegment? t).isSome := by
  by_cases h : HasTagWord t
  · obtain ⟨pre, word, listing, post, hlisting⟩ := h.exists_isTagListing
    simp [h, hlisting.tagSegment?_eq]
  · simp [h, tagSegment?_eq_none h]

instance : DecidablePred HasTagWord := fun _ => decidable_of_iff _ hasTagWord_iff_isSome.symm

instance : DecidablePred IsTagWord := fun word =>
  inferInstanceAs (Decidable (lower word ∈ ["tags", "tag"].map utf8))

end CatalogEdit.Mention
