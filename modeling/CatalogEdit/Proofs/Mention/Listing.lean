import CatalogEdit.Proofs.Mention.TagWord
import CatalogEdit.Proofs.Mention.Tags
import CatalogEdit.Proofs.Text.Alone

/-!
# Lists of tags

Behind the first word `tag` or `tags` of a request without quotes its tags are listed: entries with
commas or ampersands between them, each a tag with blanks around it or nothing but blanks. The tags
that are read are the tags that were written.

## Main definitions

* `Mention.IsListedTag` — a tag that can be written in a list.
* `Mention.Lists` — how a list of tags is written.
* `Mention.listedIn` — how it is read.

## Main statements

* `Mention.lists_iff` — reading and writing of lists agree.
* `Mention.listed_tags_as_written` — the tags of a request without quotes.
-/

namespace CatalogEdit.Mention

variable {t listing entry tag left right : Text} {values : List Text}

/-! ## Words of a text that is cut -/

theorem hasTagWord_iff_hasBetweenEdges :
    HasTagWord t ↔ Text.HasBetweenEdges (fun b => !Byte.isAsciiWord b) IsTagWord t :=
  ⟨fun ⟨pre, word, post, heq, hword, hbefore, hafter⟩ =>
      ⟨pre, word, post, heq, hword, hbefore, hafter⟩,
    fun ⟨pre, word, post, heq, hword, hbefore, hafter⟩ =>
      ⟨pre, word, post, heq, hword, hbefore, hafter⟩⟩

/-- The word stands on one side of a byte that belongs to no word. -/
theorem hasTagWord_append_cons_iff {b : UInt8} (hb : Byte.isAsciiWord b = false) (t u : Text) :
    HasTagWord (t ++ b :: u) ↔ HasTagWord t ∨ HasTagWord u := by
  have hnotMem : ∀ word, IsTagWord word → b ∉ word := fun word hword hmem => by
    rw [isAsciiWord_of_isLetter (hword.isLetter b hmem)] at hb
    contradiction
  simp only [hasTagWord_iff_hasBetweenEdges]
  exact Text.hasBetweenEdges_append_cons_iff (by simp [hb]) hnotMem t u

theorem isAsciiWord_of_isBlank {b : UInt8} : Byte.isBlank b → Byte.isAsciiWord b = false := by
  grind

theorem isAsciiWord_of_isTagSeparator {b : UInt8} :
    isTagSeparator b → Byte.isAsciiWord b = false := by
  grind [isTagSeparator]

theorem isTagSeparator_of_isBlank {b : UInt8} : Byte.isBlank b → isTagSeparator b = false := by
  grind [isTagSeparator]

theorem not_hasTagWord_nil : ¬ HasTagWord [] := by decide +kernel

theorem hasTagWord_blanks_append_iff (hleft : ∀ b ∈ left, Byte.isBlank b) :
    HasTagWord (left ++ t) ↔ HasTagWord t := by
  induction left with
  | nil => rfl
  | cons b left ih =>
    obtain ⟨hb, hleft⟩ := List.forall_mem_cons.mp hleft
    rw [← ih hleft, ← List.nil_append (b :: left ++ t), List.cons_append,
      hasTagWord_append_cons_iff (isAsciiWord_of_isBlank hb), or_iff_right not_hasTagWord_nil]

theorem not_hasTagWord_of_forall_isBlank (h : ∀ b ∈ t, Byte.isBlank b) : ¬ HasTagWord t := by
  rw [← List.append_nil t, hasTagWord_blanks_append_iff h]
  exact not_hasTagWord_nil

/-- Blanks around a text bring no word about. -/
theorem hasTagWord_append_append_iff (hleft : ∀ b ∈ left, Byte.isBlank b)
    (hright : ∀ b ∈ right, Byte.isBlank b) :
    HasTagWord (left ++ (t ++ right)) ↔ HasTagWord t := by
  rw [hasTagWord_blanks_append_iff hleft]
  cases right with
  | nil => rw [List.append_nil]
  | cons b right =>
    obtain ⟨hb, hright⟩ := List.forall_mem_cons.mp hright
    rw [hasTagWord_append_cons_iff (isAsciiWord_of_isBlank hb),
      or_iff_left (not_hasTagWord_of_forall_isBlank hright)]

/-! ## Writing a list -/

/-- A tag that can be written in a list. -/
structure IsListedTag (tag : Text) : Prop where
  ne_nil : tag ≠ []
  isTrimmed : tag.IsTrimmed
  isTagSeparator : ∀ b ∈ tag, isTagSeparator b = false
  not_hasTagWord : ¬ HasTagWord tag

/-- An entry of a list: blanks alone, or a tag with blanks around it. -/
inductive IsEntry : Text → Option Text → Prop
  | blank {blanks : Text} (h : ∀ b ∈ blanks, Byte.isBlank b) : IsEntry blanks none
  | tag {left tag right : Text} (hleft : ∀ b ∈ left, Byte.isBlank b) (htag : IsListedTag tag)
      (hright : ∀ b ∈ right, Byte.isBlank b) : IsEntry (left ++ (tag ++ right)) (some tag)

/-- Entries with commas or ampersands between them, and the tags in them. -/
inductive Lists : Text → List Text → Prop
  | entry {entry : Text} {tag : Option Text} (h : IsEntry entry tag) : Lists entry tag.toList
  | join {front back : Text} {sep : UInt8} {first last : List Text} (hfront : Lists front first)
      (hsep : isTagSeparator sep) (hback : Lists back last) :
      Lists (front ++ sep :: back) (first ++ last)

theorem Lists.isListedTag (h : Lists listing values) : ∀ tag ∈ values, IsListedTag tag := by
  induction h with
  | entry h =>
    cases h with
    | blank h => exact fun tag hmem => absurd hmem List.not_mem_nil
    | tag hleft htag hright => simpa using htag
  | join hfront hsep hback ihfront ihback =>
    exact fun tag hmem => (List.mem_append.mp hmem).elim (ihfront tag) (ihback tag)

/-! ## Reading a list -/

/-- The entries of a list that are not blank, trimmed. -/
def listedIn (listing : Text) : List Text :=
  (listing.splitOnP isTagSeparator).filterMap Text.label?

theorem listedTags_eq (h : tagSegment? t = some listing) : listedTags t = listedIn listing := by
  rw [listedTags, h, listedIn]

theorem listedIn_append_cons {sep : UInt8} (hsep : isTagSeparator sep) (front back : Text) :
    listedIn (front ++ sep :: back) = listedIn front ++ listedIn back := by
  rw [listedIn, List.splitOnP_append_cons front back hsep, List.filterMap_append, listedIn,
    listedIn]

theorem listedIn_of_forall (h : ∀ b ∈ entry, isTagSeparator b = false) :
    listedIn entry = (Text.label? entry).toList := by
  rw [listedIn, List.splitOnP_eq_singleton h, List.filterMap_cons]
  cases Text.label? entry <;> rfl

theorem IsEntry.isTagSeparator {tag : Option Text} (h : IsEntry entry tag) :
    ∀ b ∈ entry, isTagSeparator b = false := by
  cases h with
  | blank h => exact fun b hb => isTagSeparator_of_isBlank (h b hb)
  | tag hleft htag hright =>
    simp only [List.forall_mem_append]
    exact ⟨fun b hb => isTagSeparator_of_isBlank (hleft b hb), htag.isTagSeparator,
      fun b hb => isTagSeparator_of_isBlank (hright b hb)⟩

theorem IsEntry.label?_eq {tag : Option Text} (h : IsEntry entry tag) :
    Text.label? entry = tag := by
  cases h with
  | blank h => exact Text.label?_eq_none.mpr h
  | tag hleft htag hright =>
    exact Text.label?_eq_some.mpr
      ⟨Text.trim_append_append hleft htag.ne_nil htag.isTrimmed hright, htag.ne_nil⟩

theorem IsEntry.not_hasTagWord {tag : Option Text} (h : IsEntry entry tag) :
    ¬ HasTagWord entry := by
  cases h with
  | blank h => exact not_hasTagWord_of_forall_isBlank h
  | tag hleft htag hright =>
    exact mt (hasTagWord_append_append_iff hleft hright).mp htag.not_hasTagWord

/-- What holds no separator is an entry, unless the word stands in it. -/
theorem isEntry_label? (hsep : ∀ b ∈ entry, isTagSeparator b = false)
    (hword : ¬ HasTagWord entry) : IsEntry entry (Text.label? entry) := by
  cases hlabel : Text.label? entry with
  | none => exact .blank (Text.label?_eq_none.mp hlabel)
  | some tag =>
    obtain ⟨rfl, hne⟩ := Text.label?_eq_some.mp hlabel
    obtain ⟨left, right, heq, hleft, hright⟩ := Text.exists_blanks_trim entry
    have htag : IsListedTag entry.trim :=
      { ne_nil := hne
        isTrimmed := Text.isTrimmed_trim entry
        isTagSeparator := fun b hb => hsep b (Text.mem_of_mem_trim hb)
        not_hasTagWord := by
          rw [heq, hasTagWord_append_append_iff hleft hright] at hword
          exact hword }
    have hentry := IsEntry.tag hleft htag hright
    rwa [← heq] at hentry

/-- The tags that are read from a text are those that it lists, and every text without the word is a
list. -/
theorem lists_iff : Lists listing values ↔ listedIn listing = values ∧ ¬ HasTagWord listing := by
  constructor
  · intro h
    induction h with
    | entry h =>
      rw [listedIn_of_forall h.isTagSeparator, h.label?_eq]
      exact ⟨rfl, h.not_hasTagWord⟩
    | join hfront hsep hback ihfront ihback =>
      rw [listedIn_append_cons hsep, ihfront.1, ihback.1,
        hasTagWord_append_cons_iff (isAsciiWord_of_isTagSeparator hsep)]
      exact ⟨rfl, not_or.mpr ⟨ihfront.2, ihback.2⟩⟩
  · rintro ⟨rfl, hword⟩
    induction listing using Text.cut_induction isTagSeparator with
    | plain entry hsep =>
      rw [listedIn_of_forall hsep]
      exact .entry (isEntry_label? hsep hword)
    | cut front sep back hsep ihfront ihback =>
      rw [hasTagWord_append_cons_iff (isAsciiWord_of_isTagSeparator hsep), not_or] at hword
      rw [listedIn_append_cons hsep]
      exact .join (ihfront hword.1) hsep (ihback hword.2)

/-! ## The tags of a request -/

theorem tags_of_isPlain (h : t.IsPlain) : tags t = listedTags t := by
  rw [tags, quotedTags_of_isPlain h]
  rfl

/-- In a request without quotes the tags that are listed behind the first word `tag` or `tags` are
read as they were written, in their order, and every tag that is read can be written in a list. -/
theorem listed_tags_as_written (h : t.IsPlain) :
    (∀ pre word listing post values, IsBehindTagWord t pre word listing post →
      Lists listing values → tags t = values) ∧
    ∀ tag ∈ tags t, IsListedTag tag := by
  rw [tags_of_isPlain h]
  constructor
  · intro pre word listing post values hbehind hlists
    obtain ⟨hvalues, hinside⟩ := lists_iff.mp hlists
    rw [listedTags_eq (IsTagListing.tagSegment?_eq ⟨hbehind, hinside⟩), hvalues]
  · intro tag htag
    cases hsegment : tagSegment? t with
    | none => simp [listedTags, hsegment] at htag
    | some listing =>
      obtain ⟨pre, word, post, hlisting⟩ := tagSegment?_eq_some_iff.mp hsegment
      rw [listedTags_eq hsegment] at htag
      exact (lists_iff.mpr ⟨rfl, hlisting.inside⟩).isListedTag tag htag

theorem listed_tags_as_written_summer :
    Text.IsPlain (utf8 "Please tag Summer Sale, ,NEW &new Tags extra") ∧
    IsBehindTagWord (utf8 "Please tag Summer Sale, ,NEW &new Tags extra") (utf8 "Please ")
      (utf8 "tag") (utf8 " Summer Sale, ,NEW &new ") (utf8 "Tags extra") ∧
    Lists (utf8 " Summer Sale, ,NEW &new ") (["Summer Sale", "NEW", "new"].map utf8) ∧
    tags (utf8 "Please tag Summer Sale, ,NEW &new Tags extra") =
      ["Summer Sale", "NEW", "new"].map utf8 := by
  have hplain : Text.IsPlain (utf8 "Please tag Summer Sale, ,NEW &new Tags extra") := by
    decide +kernel
  have hbehind : IsBehindTagWord (utf8 "Please tag Summer Sale, ,NEW &new Tags extra")
      (utf8 "Please ") (utf8 "tag") (utf8 " Summer Sale, ,NEW &new ") (utf8 "Tags extra") :=
    { stands := ⟨by decide +kernel, by decide +kernel, by decide +kernel, by decide +kernel⟩
      first := by decide +kernel
      stops := .inr ⟨utf8 "Tags", utf8 " extra",
        by decide +kernel, by decide +kernel, by decide +kernel, by decide +kernel⟩ }
  have hlists : Lists (utf8 " Summer Sale, ,NEW &new ") (["Summer Sale", "NEW", "new"].map utf8) :=
    lists_iff.mpr ⟨by decide +kernel, by decide +kernel⟩
  exact ⟨hplain, hbehind, hlists,
    (listed_tags_as_written hplain).1 _ _ _ _ _ hbehind hlists⟩

end CatalogEdit.Mention
