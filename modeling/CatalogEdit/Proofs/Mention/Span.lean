import CatalogEdit.Proofs.Mention.Case
import CatalogEdit.Proofs.Mention.Place
import CatalogEdit.Proofs.Text.Once

/-!
# Where the name of a place stands

The name of a place is read off the text that follows a preposition. A blank stands before it, and
behind it nothing but blanks up to a byte that no name has. So the name does not overlap another
occurrence of itself, and it stands alone unless a character outside ASCII follows it at once.

## Main definitions

* `Mention.locationStart?` — the rest of a text, from the name of its place on.
* `Mention.IsPlaceSpan` — the text before the name of the place, the name, and the text behind it.

## Main statements

* `Mention.location?_eq_bind` — the name is read at the place where it starts.
* `Mention.exists_isPlaceSpan` — every name stands somewhere.
* `Mention.IsPlaceSpan.standsBetween_iff` — when the name stands alone.
* `Mention.IsPlaceSpan.isApart` — the name does not overlap another occurrence of itself.
-/

namespace CatalogEdit.Mention

/-! ## Where a name starts -/

/-- The rest of `t` from the phrase at its head on. -/
def phraseStart? (inClass : UInt8 → Bool) (t : Text) : Option Text :=
  (phraseAfter? inClass t).map fun _ => Text.trimStart t

/-- The rest of what follows a preposition, from the name of a place on. -/
def placeStart? (t : Text) : Option Text :=
  let named :=
    if t.head?.any Byte.isBlank then
      (afterKeyword? [placeKeyword] (Text.trimStart t)).bind (phraseStart? isLocationByte)
    else
      none
  named.or (phraseStart? isLocationByte t)

def locationStartAt? (before : Option UInt8) (t : Text) : Option Text :=
  if isAsciiEdge before then (afterKeyword? placeKeywords t).bind placeStart? else none

/-- The rest of `t` from the name of its place on. -/
def locationStart? (t : Text) : Option Text := Text.search locationStartAt? t

theorem phraseAfter?_eq_map (inClass : UInt8 → Bool) (t : Text) :
    phraseAfter? inClass t = (phraseStart? inClass t).map (List.takeWhile inClass) := by
  simp only [phraseStart?, Option.map_map, phraseAfter?]
  split
  next => rfl
  next =>
    split
    next => rfl
    next hhead =>
      split
      next =>
        -- The phrase is the last blank, and no byte of the class stands where it would go on.
        cases hrest : Text.trimStart t with
        | nil => rfl
        | cons b rest =>
          rw [hrest] at hhead
          simp_all
      next => rfl

theorem bind_phraseAfter? (inClass : UInt8 → Bool) (rest : Option Text) :
    rest.bind (phraseAfter? inClass) =
      (rest.bind (phraseStart? inClass)).map (List.takeWhile inClass) := by
  cases rest with
  | none => rfl
  | some t => exact phraseAfter?_eq_map inClass t

theorem placeName?_eq_map (t : Text) :
    placeName? t = (placeStart? t).map (List.takeWhile isLocationByte) := by
  rw [placeName?, placeStart?, Option.map_or, phraseAfter?_eq_map, bind_phraseAfter?]
  congr 1
  split
  next => rfl
  next => rfl

theorem locationAt?_eq_map (before : Option UInt8) (t : Text) :
    locationAt? before t =
      (locationStartAt? before t).map (List.takeWhile isLocationByte) := by
  rw [locationAt?, locationStartAt?]
  split
  next =>
    cases afterKeyword? placeKeywords t with
    | none => rfl
    | some rest => exact placeName?_eq_map rest
  next => rfl

/-- The name of a place is read where it starts. -/
theorem location?_eq_bind (t : Text) :
    location? t =
      (locationStart? t).bind fun rest => Text.label? (rest.takeWhile isLocationByte) := by
  have hat : locationAt? =
      fun before rest => (locationStartAt? before rest).map (List.takeWhile isLocationByte) :=
    funext fun before => funext (locationAt?_eq_map before)
  rw [location?, hat, Text.search_map, Option.bind_map]
  rfl

/-! ## What stands before a name -/

variable {t place pre post : Text}

theorem suffix_of_afterKeyword? {keywords : List Text} {rest : Text}
    (h : afterKeyword? keywords t = some rest) : rest <:+ t := by
  obtain ⟨k, -, rfl⟩ := Option.map_eq_some_iff.mp h
  exact List.drop_suffix k.length t

theorem exists_phraseStart?_of_placeStart? {rest : Text} (h : placeStart? t = some rest) :
    ∃ tail, tail <:+ t ∧ phraseStart? isLocationByte tail = some rest := by
  simp only [placeStart?, Option.or_eq_some_iff] at h
  rcases h with hnamed | ⟨-, hplain⟩
  · split at hnamed
    next =>
      obtain ⟨tail, hafter, htail⟩ := Option.bind_eq_some_iff.mp hnamed
      exact ⟨tail, (suffix_of_afterKeyword? hafter).trans (List.dropWhile_suffix _), htail⟩
    next => contradiction
  · exact ⟨t, List.suffix_rfl, hplain⟩

theorem exists_phraseStart?_of_locationStart? {rest : Text} (h : locationStart? t = some rest) :
    ∃ tail, tail <:+ t ∧ phraseStart? isLocationByte tail = some rest := by
  obtain ⟨before, tail, htail, hat⟩ := Text.exists_of_search h
  simp only [locationStartAt?] at hat
  split at hat
  next =>
    obtain ⟨tail', hafter, hplace⟩ := Option.bind_eq_some_iff.mp hat
    obtain ⟨tail'', hsuffix, hphrase⟩ := exists_phraseStart?_of_placeStart? hplace
    exact ⟨tail'', (hsuffix.trans (suffix_of_afterKeyword? hafter)).trans htail, hphrase⟩
  next => contradiction

/-- A phrase starts behind a blank. -/
theorem exists_blank_of_phraseStart? {inClass : UInt8 → Bool} {rest : Text}
    (h : phraseStart? inClass t = some rest) :
    ∃ front b, t = front ++ b :: rest ∧ Byte.isBlank b := by
  obtain ⟨phrase, hphrase, rfl⟩ := Option.map_eq_some_iff.mp h
  obtain ⟨blanks, heq, hblanks⟩ := Text.exists_blanks_trimStart t
  have hne : blanks ≠ [] := by
    rintro rfl
    have hsame : Text.trimStart t = t := heq.symm
    simp [phraseAfter?, hsame] at hphrase
  refine ⟨blanks.dropLast, blanks.getLast hne, ?_, hblanks _ (List.getLast_mem hne)⟩
  rw [List.append_cons, List.dropLast_append_getLast hne]
  exact heq

theorem exists_blank_of_locationStart? {rest : Text} (h : locationStart? t = some rest) :
    ∃ front b, t = front ++ b :: rest ∧ Byte.isBlank b := by
  obtain ⟨tail, ⟨front', rfl⟩, hphrase⟩ := exists_phraseStart?_of_locationStart? h
  obtain ⟨front, b, rfl, hb⟩ := exists_blank_of_phraseStart? hphrase
  exact ⟨front' ++ front, b, by simp, hb⟩

theorem isBlank_head?_of_locationStart? {rest : Text} (h : locationStart? t = some rest) :
    ∀ b ∈ rest.head?, Byte.isBlank b = false := by
  obtain ⟨tail, -, hphrase⟩ := exists_phraseStart?_of_locationStart? h
  obtain ⟨phrase, -, rfl⟩ := Option.map_eq_some_iff.mp hphrase
  exact Text.isBlank_head?_trimStart tail

/-! ## Spans -/

/-- The name of the place of `t` stands between `pre` and `post`. -/
structure IsPlaceSpan (t pre place post : Text) : Prop where
  eq : t = pre ++ (place ++ post)
  start : locationStart? t = some (place ++ post)
  label : Text.label? ((place ++ post).takeWhile isLocationByte) = some place

theorem exists_isPlaceSpan (h : location? t = some place) :
    ∃ pre post, IsPlaceSpan t pre place post := by
  rw [location?_eq_bind] at h
  obtain ⟨rest, hstart, hlabel⟩ := Option.bind_eq_some_iff.mp h
  obtain ⟨front, b, heq, -⟩ := exists_blank_of_locationStart? hstart
  have hhead : ∀ c ∈ (rest.takeWhile isLocationByte).head?, Byte.isBlank c = false := by
    intro c hc
    refine isBlank_head?_of_locationStart? hstart c ?_
    cases rest with
    | nil => contradiction
    | cons d rest =>
      rw [List.takeWhile_cons] at hc
      split at hc
      next => exact hc
      next => contradiction
  obtain ⟨blanks, htake, -⟩ := Text.exists_blanks_of_label? hlabel hhead
  have hrest : rest = place ++ (blanks ++ rest.dropWhile isLocationByte) := by
    rw [← List.append_assoc, ← htake, List.takeWhile_append_dropWhile]
  refine ⟨front ++ [b], blanks ++ rest.dropWhile isLocationByte, ?_, ?_, ?_⟩
  · rw [← hrest, heq, List.append_assoc, List.singleton_append]
  · rw [← hrest, hstart]
  · rw [← hrest, hlabel]

namespace IsPlaceSpan

variable (h : IsPlaceSpan t pre place post)
include h

theorem location?_eq_some : location? t = some place := by
  rw [location?_eq_bind, h.start]
  exact h.label

theorem isBlank_getLast? : ∃ b, pre.getLast? = some b ∧ Byte.isBlank b := by
  obtain ⟨front, b, heq, hb⟩ := exists_blank_of_locationStart? h.start
  have hpre : pre = front ++ [b] :=
    List.append_cancel_right (h.eq.symm.trans (heq.trans (List.append_cons _ _ _)))
  exact ⟨b, by rw [hpre, List.getLast?_concat], hb⟩

/-- Up to a byte that no name has there are only blanks behind the name. -/
theorem isBlank_takeWhile : ∀ b ∈ post.takeWhile isLocationByte, Byte.isBlank b := by
  have hlabel := h.label
  rw [List.takeWhile_append_of_pos (forall_mem_location? h.location?_eq_some)] at hlabel
  have htrimmed := isTrimmed_of_location? h.location?_eq_some
  have hhead : ∀ b ∈ (place ++ post.takeWhile isLocationByte).head?, Byte.isBlank b = false := by
    rw [List.head?_append_of_ne_nil _ (location?_ne_nil h.location?_eq_some)]
    exact htrimmed.head
  obtain ⟨blanks, heq, hblanks⟩ := Text.exists_blanks_of_label? hlabel hhead
  rwa [List.append_cancel_left heq]

omit h in
/-- A byte that ends a name is no part of a word unless it is one of a character outside ASCII. -/
theorem isWord_eq_false_iff {b : UInt8} :
    (isLocationByte b → Byte.isBlank b) → ((!Byte.isWord b) = true ↔ b < 0x80) := by
  grind [isLocationByte]

/-- The byte behind the name is no part of a word unless it is one of a character outside ASCII. -/
theorem isWordEdge_head?_iff : Text.isWordEdge post.head? ↔ ∀ b ∈ post.head?, b < 0x80 := by
  cases hpost : post with
  | nil => simp
  | cons b rest =>
    have hblank : isLocationByte b → Byte.isBlank b := fun hb =>
      h.isBlank_takeWhile b (by simp [hpost, hb])
    have hedge : Text.isWordEdge (some b) ↔ b < 0x80 := by
      rw [Text.isWordEdge_some]
      exact isWord_eq_false_iff hblank
    simpa using hedge

/-- The name stands alone in the text unless a character outside ASCII follows it at once. -/
theorem standsBetween_iff : Text.StandsBetween place pre post t ↔ ∀ b ∈ post.head?, b < 0x80 := by
  rw [← h.isWordEdge_head?_iff]
  obtain ⟨b, hb, hblank⟩ := h.isBlank_getLast?
  have hbefore : Text.isWordEdge pre.getLast? := by
    rw [hb]
    simpa using Text.isWord_of_isBlank hblank
  refine ⟨Text.StandsBetween.after, fun hafter => ⟨⟨place, ?_, rfl⟩, hbefore, hafter⟩⟩
  rw [h.eq, List.append_assoc]

/-- Another occurrence of the name would end with blanks that stand behind it. -/
theorem isApart : Text.IsApart place post := by
  intro x y heq hx hlength hstarts
  obtain ⟨found, rest, rfl, hfound⟩ := Text.startsWith_iff.mp hstarts
  obtain ⟨beyond, rfl, hsuffix, hne⟩ := Text.exists_beyond heq hx hlength hfound
  have hbytes := Text.forall_mem_of_lower_eq ignoresCase_isLocationByte hfound
    (forall_mem_location? h.location?_eq_some)
  have hblank : ∀ b ∈ beyond, Byte.isBlank b := by
    intro b hb
    refine h.isBlank_takeWhile b ?_
    rw [List.takeWhile_append_of_pos fun c hc => hbytes c (hsuffix.subset hc)]
    exact List.mem_append_left _ hb
  have hlast : found.getLast? = some (beyond.getLast hne) := by
    obtain ⟨front, rfl⟩ := hsuffix
    rw [List.getLast?_append_of_ne_nil _ hne, List.getLast?_eq_some_getLast hne]
  have hvisible := Text.isBlank_getLast?_of_lower_eq hfound
    (isTrimmed_of_location? h.location?_eq_some).last _ hlast
  rw [hblank _ (List.getLast_mem hne)] at hvisible
  contradiction

end IsPlaceSpan

end CatalogEdit.Mention
