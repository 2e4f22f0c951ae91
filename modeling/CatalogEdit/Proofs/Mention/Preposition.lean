import CatalogEdit.Proofs.Mention.Span

/-!
# Prepositions that hide the name of a place

A name of a place is read behind the first preposition that leaves anything to read. If only blanks
can be read there, two or more of them before a byte that no name has, the request names no place,
whatever follows. The word `location` behind a preposition does the same.

## Main definitions

* `Mention.IsPreposition` — a preposition of place in a text.
* `Mention.NamesPlace` — the text behind a preposition begins with a name.
* `Mention.HidesPlace` — only blanks can be read behind a preposition.

## Main statements

* `Mention.placeName?_of_hidesPlace`, `Mention.isSome_placeName?`,
  `Mention.namesPlace_of_placeName?` — what is read behind a preposition.
* `Mention.places_are_found_unless_hidden` — when a place is found in a request.
-/

namespace CatalogEdit.Mention

variable {t pre rest place u : Text}

/-- A preposition of place stands between `pre` and `rest`, in any case of its letters. No letter,
digit or underscore is right before it. -/
structure IsPreposition (t pre rest : Text) : Prop where
  eq : ∃ found, t = pre ++ (found ++ rest) ∧ ∃ k ∈ placeKeywords, Text.lower found = Text.lower k
  edge : isAsciiEdge pre.getLast?

/-- Blanks and a letter, digit, underscore or hyphen come first. -/
def NamesPlace (rest : Text) : Prop :=
  ∃ blanks b tail, rest = blanks ++ b :: tail ∧ blanks ≠ [] ∧ (∀ c ∈ blanks, Byte.isBlank c) ∧
    (Byte.isAsciiWord b ∨ b = Byte.minus)

/-- Two or more blanks come first, and no byte of a name follows them. -/
def LeavesBlank (rest : Text) : Prop :=
  ∃ blanks tail, rest = blanks ++ tail ∧ 2 ≤ blanks.length ∧ (∀ c ∈ blanks, Byte.isBlank c) ∧
    ∀ b ∈ tail.head?, isLocationByte b = false

/-- Only blanks can be read, either right away or behind the word `location`. -/
def HidesPlace (rest : Text) : Prop :=
  LeavesBlank rest ∨
    ∃ blanks word tail, rest = blanks ++ (word ++ tail) ∧ blanks ≠ [] ∧
      (∀ c ∈ blanks, Byte.isBlank c) ∧ Text.lower word = Text.lower placeKeyword ∧
      LeavesBlank tail

/-! ## Phrases behind blanks -/

/-- All the blanks at the head of a text, and what is read behind them. -/
theorem phraseAfter?_blanks_append {inClass : UInt8 → Bool} {blanks tail : Text}
    (hblanks : ∀ c ∈ blanks, Byte.isBlank c) (htail : ∀ b ∈ tail.head?, Byte.isBlank b = false) :
    phraseAfter? inClass (blanks ++ tail) =
      if blanks.length = 0 then none
      else if tail.head?.any inClass then some (tail.takeWhile inClass)
      else if 2 ≤ blanks.length then some []
      else none := by
  have htrim : Text.trimStart (blanks ++ tail) = tail := by
    rw [Text.trimStart_append hblanks, Text.trimStart_eq_self htail]
  have hcount : (blanks ++ tail).length - tail.length = blanks.length := by
    rw [List.length_append, Nat.add_sub_cancel]
  simp only [phraseAfter?, htrim, hcount, beq_iff_eq]

theorem isBlank_of_isLocationByte_eq_false {b : UInt8} :
    isLocationByte b = false → Byte.isBlank b = false := by
  grind [isLocationByte]

/-- The bytes with which a name begins are the bytes of a name that are not blank. -/
theorem isLocationByte_iff_of_not_isBlank {b : UInt8} (hb : Byte.isBlank b = false) :
    isLocationByte b ↔ Byte.isAsciiWord b ∨ b = Byte.minus := by
  simp [isLocationByte, hb]

theorem isBlank_eq_false_of_name {b : UInt8} :
    Byte.isAsciiWord b ∨ b = Byte.minus → Byte.isBlank b = false := by
  grind

theorem phraseAfter?_of_leavesBlank (h : LeavesBlank rest) :
    phraseAfter? isLocationByte rest = some [] := by
  obtain ⟨blanks, tail, rfl, hlength, hblanks, htail⟩ := h
  have hhead : tail.head?.any isLocationByte = false := by
    cases hb : tail.head? with
    | none => rfl
    | some b => simpa using htail b hb
  rw [phraseAfter?_blanks_append hblanks fun b hb =>
    isBlank_of_isLocationByte_eq_false (htail b hb), hhead, if_neg (by omega),
    if_neg Bool.false_ne_true, if_pos hlength]

theorem phraseAfter?_of_namesPlace (h : NamesPlace rest) :
    ∃ u, phraseAfter? isLocationByte rest = some u ∧ (Text.label? u).isSome := by
  obtain ⟨blanks, b, tail, rfl, hne, hblanks, hb⟩ := h
  have hvisible := isBlank_eq_false_of_name hb
  have hbyte := (isLocationByte_iff_of_not_isBlank hvisible).mpr hb
  refine ⟨(b :: tail).takeWhile isLocationByte, ?_, ?_⟩
  · rw [phraseAfter?_blanks_append hblanks (by simpa using hvisible),
      if_neg (by simpa using hne), if_pos (by simpa using hbyte)]
  · rw [Option.isSome_iff_ne_none, Ne, Text.label?_eq_none]
    intro hall
    rw [hall b (by simp [hbyte])] at hvisible
    contradiction

/-- Behind blanks there is a name, or only blanks can be read. -/
theorem namesPlace_or_leavesBlank (h : phraseAfter? isLocationByte rest = some u) :
    NamesPlace rest ∨ LeavesBlank rest := by
  obtain ⟨blanks, heq, hblanks⟩ := Text.exists_blanks_trimStart rest
  have htail := Text.isBlank_head?_trimStart rest
  generalize Text.trimStart rest = tail at heq htail
  subst heq
  rw [phraseAfter?_blanks_append hblanks htail] at h
  split at h
  next => contradiction
  next hlength =>
    cases tail with
    | nil =>
      refine .inr ⟨blanks, [], rfl, ?_, hblanks, by simp⟩
      by_contra hshort
      simp [hshort] at h
    | cons b tail =>
      cases hbyte : isLocationByte b with
      | true =>
        refine .inl ⟨blanks, b, tail, rfl, by simpa using hlength, hblanks, ?_⟩
        exact (isLocationByte_iff_of_not_isBlank (htail b rfl)).mp hbyte
      | false =>
        refine .inr ⟨blanks, b :: tail, rfl, ?_, hblanks, by simpa using hbyte⟩
        by_contra hshort
        simp [hbyte, hshort] at h

/-! ## Names behind prepositions -/

/-- No preposition begins like another one. -/
theorem placeKeywords_head?_inj :
    ∀ k ∈ placeKeywords, ∀ k' ∈ placeKeywords, (Text.lower k).head? = (Text.lower k').head? →
      k = k' := by
  decide +kernel

theorem ne_nil_of_mem_placeKeywords : ∀ k ∈ placeKeywords, k ≠ [] := by
  decide +kernel

/-- What is read behind one of some keywords, if no two of them begin alike. -/
theorem afterKeyword?_eq_some_iff {keywords : List Text} (hne : ∀ k ∈ keywords, k ≠ [])
    (hinj : ∀ k ∈ keywords, ∀ k' ∈ keywords,
      (Text.lower k).head? = (Text.lower k').head? → k = k') :
    afterKeyword? keywords t = some rest ↔
      ∃ found, t = found ++ rest ∧ ∃ k ∈ keywords, Text.lower found = Text.lower k := by
  have hsound : ∀ rest', afterKeyword? keywords t = some rest' →
      ∃ found, t = found ++ rest' ∧ ∃ k ∈ keywords, Text.lower found = Text.lower k := by
    intro rest' h
    obtain ⟨k, hfind, rfl⟩ := Option.map_eq_some_iff.mp h
    have hstarts : Text.startsWith k t := by simpa using List.find?_some hfind
    obtain ⟨found, rest, rfl, hlower⟩ := Text.startsWith_iff.mp hstarts
    rw [← Text.length_eq_of_lower_eq hlower, List.drop_left]
    exact ⟨found, rfl, k, List.mem_of_find?_eq_some hfind, hlower⟩
  refine ⟨hsound rest, ?_⟩
  rintro ⟨found, rfl, k, hk, hlower⟩
  have hstarts : Text.startsWith k (found ++ rest) :=
    Text.startsWith_iff.mpr ⟨found, rest, rfl, hlower⟩
  have hfind : (keywords.find? fun k => Text.startsWith k (found ++ rest)).isSome :=
    List.find?_isSome.mpr ⟨k, hk, hstarts⟩
  obtain ⟨rest', hrest'⟩ : ∃ rest', afterKeyword? keywords (found ++ rest) = some rest' := by
    rw [← Option.isSome_iff_exists, afterKeyword?, Option.isSome_map, hfind]
  obtain ⟨found', heq, k', hk', hlower'⟩ := hsound rest' hrest'
  -- The two keywords begin with the same byte of the text.
  have hhead : (Text.lower k).head? = (Text.lower k').head? := by
    rw [← hlower, ← hlower', Text.head?_lower, Text.head?_lower,
      ← List.head?_append_of_ne_nil found (Text.ne_nil_of_lower_eq hlower (hne k hk)), heq,
      List.head?_append_of_ne_nil found' (Text.ne_nil_of_lower_eq hlower' (hne k' hk'))]
  obtain rfl := hinj k hk k' hk' hhead
  have hlength := Text.length_eq_of_lower_eq (hlower.trans hlower'.symm)
  rw [hrest', (List.append_inj heq hlength).2]

theorem afterKeyword?_placeKeyword_eq_some_iff :
    afterKeyword? [placeKeyword] t = some rest ↔
      ∃ found, t = found ++ rest ∧ Text.lower found = Text.lower placeKeyword := by
  have hmem : ∀ k ∈ [placeKeyword], k ∈ placeKeywords := by simp [placeKeywords]
  rw [afterKeyword?_eq_some_iff (fun k hk => ne_nil_of_mem_placeKeywords k (hmem k hk))
    fun k hk k' hk' => placeKeywords_head?_inj k (hmem k hk) k' (hmem k' hk')]
  simp only [List.mem_singleton, exists_eq_left]

/-- The word `location` begins with a letter. -/
theorem isAsciiWord_head?_append {word : Text} (hword : Text.lower word = Text.lower placeKeyword)
    (tail : Text) : ∃ b rest, word ++ tail = b :: rest ∧ Byte.isAsciiWord b := by
  cases word with
  | nil => exact absurd hword (by decide +kernel)
  | cons b word =>
    have hletters : ∀ c ∈ Text.lower placeKeyword, Byte.isAsciiWord c := by decide +kernel
    refine ⟨b, word ++ tail, rfl, ?_⟩
    rw [← Byte.ignoresCase_isAsciiWord]
    exact hletters _ (hword ▸ List.mem_cons_self)

theorem isBlank_head?_append {word : Text} (hword : Text.lower word = Text.lower placeKeyword)
    (tail : Text) : ∀ b ∈ (word ++ tail).head?, Byte.isBlank b = false := by
  obtain ⟨b, rest, heq, hb⟩ := isAsciiWord_head?_append hword tail
  rw [heq]
  simpa using isBlank_eq_false_of_name (.inl hb)

/-- Behind the blanks, the word `location` is tried first. -/
theorem placeName?_blanks_append {blanks tail : Text} (hne : blanks ≠ [])
    (hblanks : ∀ c ∈ blanks, Byte.isBlank c) (htail : ∀ b ∈ tail.head?, Byte.isBlank b = false) :
    placeName? (blanks ++ tail) =
      ((afterKeyword? [placeKeyword] tail).bind (phraseAfter? isLocationByte)).or
        (phraseAfter? isLocationByte (blanks ++ tail)) := by
  have hhead : (blanks ++ tail).head?.any Byte.isBlank := by
    cases blanks with
    | nil => contradiction
    | cons b blanks => simpa using hblanks b List.mem_cons_self
  simp only [placeName?, hhead, if_true, Text.trimStart_append hblanks,
    Text.trimStart_eq_self htail]

/-- Where only blanks can be read, nothing is read. -/
theorem placeName?_of_hidesPlace (h : HidesPlace rest) : placeName? rest = some [] := by
  rcases h with hblank | ⟨blanks, word, tail, rfl, hne, hblanks, hword, hblank⟩
  · have hphrase := phraseAfter?_of_leavesBlank hblank
    obtain ⟨blanks, tail, rfl, hlength, hblanks, htail⟩ := hblank
    have hne : blanks ≠ [] := by
      rintro rfl
      simp at hlength
    have hafter : afterKeyword? [placeKeyword] tail = none := by
      refine Option.eq_none_iff_forall_ne_some.mpr fun rest hrest => ?_
      obtain ⟨word, rfl, hword⟩ := afterKeyword?_placeKeyword_eq_some_iff.mp hrest
      obtain ⟨b, rest, heq, hb⟩ := isAsciiWord_head?_append hword rest
      have hbyte := htail b (by rw [heq]; rfl)
      simp [isLocationByte, hb] at hbyte
    rw [placeName?_blanks_append hne hblanks fun b hb =>
      isBlank_of_isLocationByte_eq_false (htail b hb), hafter, hphrase]
    rfl
  · have hafter : afterKeyword? [placeKeyword] (word ++ tail) = some tail :=
      afterKeyword?_placeKeyword_eq_some_iff.mpr ⟨word, rfl, hword⟩
    rw [placeName?_blanks_append hne hblanks (isBlank_head?_append hword tail), hafter,
      Option.bind_some, phraseAfter?_of_leavesBlank hblank]
    rfl

theorem isSome_placeName? (h : NamesPlace rest) : (placeName? rest).isSome := by
  obtain ⟨u, hu, -⟩ := phraseAfter?_of_namesPlace h
  rw [placeName?, hu, Option.isSome_or, Option.isSome_some, Bool.or_true]

/-- What is read is a name unless the preposition hides it. -/
theorem namesPlace_of_placeName? (h : placeName? rest = some u) (hnot : ¬ HidesPlace rest) :
    NamesPlace rest ∧ (Text.label? u).isSome := by
  have hname : ∀ tail, phraseAfter? isLocationByte tail = some u → ¬ LeavesBlank tail →
      NamesPlace tail ∧ (Text.label? u).isSome := by
    intro tail hphrase hblank
    have hnames := (namesPlace_or_leavesBlank hphrase).resolve_right hblank
    obtain ⟨u', hu', hlabel⟩ := phraseAfter?_of_namesPlace hnames
    obtain rfl := Option.some.inj (hphrase.symm.trans hu')
    exact ⟨hnames, hlabel⟩
  obtain ⟨blanks, heq, hblanks⟩ := Text.exists_blanks_trimStart rest
  have htail := Text.isBlank_head?_trimStart rest
  generalize Text.trimStart rest = tail at heq htail
  subst heq
  by_cases hne : blanks = []
  · -- A name has a blank before it.
    subst hne
    have hplain : phraseAfter? isLocationByte tail = some u := by
      have hhead : tail.head?.any Byte.isBlank = false := by
        cases hb : tail.head? with
        | none => rfl
        | some b => simpa using htail b hb
      simpa [placeName?, hhead] using h
    exact hname tail hplain fun hblank => hnot (.inl hblank)
  · rw [placeName?_blanks_append hne hblanks htail, Option.or_eq_some_iff] at h
    rcases h with hnamed | ⟨-, hplain⟩
    · obtain ⟨tail', hafter, hphrase⟩ := Option.bind_eq_some_iff.mp hnamed
      obtain ⟨word, rfl, hword⟩ := afterKeyword?_placeKeyword_eq_some_iff.mp hafter
      obtain ⟨-, hlabel⟩ := hname tail' hphrase fun hblank =>
        hnot (.inr ⟨blanks, word, tail', rfl, hne, hblanks, hword, hblank⟩)
      obtain ⟨b, rest, heq, hb⟩ := isAsciiWord_head?_append hword tail'
      exact ⟨⟨blanks, b, rest, by rw [heq], hne, hblanks, .inl hb⟩, hlabel⟩
    · exact hname _ hplain fun hblank => hnot (.inl hblank)

/-! ## The place of a request -/

theorem isPreposition_iff :
    IsPreposition t pre rest ↔
      ∃ tail, t = pre ++ tail ∧ isAsciiEdge pre.getLast? ∧
        afterKeyword? placeKeywords tail = some rest := by
  simp only [afterKeyword?_eq_some_iff ne_nil_of_mem_placeKeywords placeKeywords_head?_inj]
  constructor
  · rintro ⟨⟨found, rfl, hfound⟩, hedge⟩
    exact ⟨found ++ rest, rfl, hedge, found, rfl, hfound⟩
  · rintro ⟨tail, rfl, hedge, found, rfl, hfound⟩
    exact ⟨⟨found, rfl, hfound⟩, hedge⟩

theorem locationAt?_eq_some_iff {tail : Text} :
    locationAt? pre.getLast? tail = some u ↔
      ∃ rest, IsPreposition (pre ++ tail) pre rest ∧ placeName? rest = some u := by
  simp only [isPreposition_iff, List.append_cancel_left_eq, exists_eq_left', locationAt?,
    Option.ite_none_right_eq_some, Option.bind_eq_some_iff, and_assoc, exists_and_left]

/-- At most one preposition begins at a place. -/
theorem IsPreposition.unique {pre' rest' : Text} (h : IsPreposition t pre rest)
    (h' : IsPreposition t pre' rest') (hlength : pre.length = pre'.length) : rest = rest' := by
  obtain ⟨tail, rfl, -, hafter⟩ := isPreposition_iff.mp h
  obtain ⟨tail', heq, -, hafter'⟩ := isPreposition_iff.mp h'
  obtain ⟨rfl, rfl⟩ := List.append_inj heq hlength
  exact Option.some.inj (hafter.symm.trans hafter')

theorem locationAt?_eq_none {tail : Text} (h : locationAt? pre.getLast? tail = none)
    (hrest : IsPreposition (pre ++ tail) pre rest) : placeName? rest = none :=
  Option.eq_none_iff_forall_ne_some.mpr fun u hu =>
    absurd (locationAt?_eq_some_iff.mpr ⟨rest, hrest, hu⟩) (by simp [h])

/-- The first preposition that leaves anything to read decides. -/
theorem exists_of_search_locationAt? (h : Text.search locationAt? t = some u) :
    ∃ pre rest, IsPreposition t pre rest ∧ placeName? rest = some u ∧
      ∀ pre' rest', IsPreposition t pre' rest' → pre'.length < pre.length →
        placeName? rest' = none := by
  obtain ⟨pre, tail, rfl, -, hat, hfirst⟩ := Text.searchFrom_eq_some_iff.mp h
  rw [Option.or_none] at hat
  obtain ⟨rest, hrest, hname⟩ := locationAt?_eq_some_iff.mp hat
  refine ⟨pre, rest, hrest, hname, fun pre' rest' hrest' hlt => ?_⟩
  obtain ⟨tail', heq, -⟩ := isPreposition_iff.mp hrest'
  have hnone := hfirst pre' tail' heq hlt
  rw [Option.or_none] at hnone
  exact locationAt?_eq_none hnone (heq ▸ hrest')

/-- A preposition that leaves something to read is enough to end the search. -/
theorem isSome_search_locationAt? (h : IsPreposition t pre rest)
    (hname : (placeName? rest).isSome) : (Text.search locationAt? t).isSome := by
  obtain ⟨u, hu⟩ := Option.isSome_iff_exists.mp hname
  have hat : ∀ tail, t = pre ++ tail → locationAt? pre.getLast? tail = some u :=
    fun tail heq => locationAt?_eq_some_iff.mpr ⟨rest, heq ▸ h, hu⟩
  obtain ⟨found, heq, k, hk, hlower⟩ := h.eq
  have hfound := Text.ne_nil_of_lower_eq hlower (ne_nil_of_mem_placeKeywords k hk)
  refine Text.isSome_searchFrom_iff.mpr ⟨pre, found ++ rest, heq, by simp [hfound], ?_⟩
  rw [Option.or_none, hat _ heq, Option.isSome_some]

/-! ## Hidden places -/

/-- The preposition of a place that was found names it, and none there or before hides it. -/
theorem exists_of_location? (h : location? t = some place) :
    ∃ pre rest, IsPreposition t pre rest ∧ NamesPlace rest ∧
      ∀ pre' rest', IsPreposition t pre' rest' → HidesPlace rest' → pre.length < pre'.length := by
  obtain ⟨u, hsearch, hlabel⟩ := Option.bind_eq_some_iff.mp h
  obtain ⟨pre, rest, hrest, hname, hfirst⟩ := exists_of_search_locationAt? hsearch
  have hlater : ∀ pre' rest', IsPreposition t pre' rest' → HidesPlace rest' →
      pre.length < pre'.length := by
    intro pre' rest' hrest' hhides
    have hblank := placeName?_of_hidesPlace hhides
    have hle : pre.length ≤ pre'.length := by
      by_contra hlt
      simp [hfirst pre' rest' hrest' (Nat.lt_of_not_le hlt)] at hblank
    refine Nat.lt_of_le_of_ne hle fun hlength => ?_
    obtain rfl := hrest.unique hrest' hlength
    obtain rfl := Option.some.inj (hname.symm.trans hblank)
    exact Text.label?_ne_nil hlabel (Text.label?_eq_some.mp hlabel).1.symm
  refine ⟨pre, rest, hrest, ?_, hlater⟩
  exact (namesPlace_of_placeName? hname fun hhides =>
    absurd (hlater pre rest hrest hhides) (Nat.lt_irrefl _)).1

/-- The preposition at which the search ends is not behind the one that names the place, so it does
not hide a place either. -/
theorem isSome_location? (hrest : IsPreposition t pre rest) (hnames : NamesPlace rest)
    (hlater : ∀ pre' rest', IsPreposition t pre' rest' → HidesPlace rest' →
      pre.length < pre'.length) : (location? t).isSome := by
  have hsome := isSome_placeName? hnames
  obtain ⟨u, hsearch⟩ := Option.isSome_iff_exists.mp (isSome_search_locationAt? hrest hsome)
  obtain ⟨first, rest', hrest', hname, hfirst⟩ := exists_of_search_locationAt? hsearch
  have hle : first.length ≤ pre.length := by
    by_contra hlt
    simp [hfirst pre rest hrest (Nat.lt_of_not_le hlt)] at hsome
  have hnot : ¬ HidesPlace rest' := fun hhides =>
    absurd (hlater first rest' hrest' hhides) (Nat.not_lt.mpr hle)
  rw [location?, hsearch]
  exact (namesPlace_of_placeName? hname hnot).2

/-- A place is found in a request exactly if it is named behind a preposition and no preposition
there or before hides it. The name is a part of the request without blanks at its ends, made of
letters, digits, underscores, hyphens and blanks. -/
theorem places_are_found_unless_hidden (t : Text) :
    ((location? t).isSome ↔
      ∃ pre rest, IsPreposition t pre rest ∧ NamesPlace rest ∧
        ∀ pre' rest', IsPreposition t pre' rest' → HidesPlace rest' →
          pre.length < pre'.length) ∧
    ∀ place, location? t = some place →
      place ≠ [] ∧ place.IsTrimmed ∧ place <:+: t ∧ ∀ b ∈ place, isLocationByte b := by
  refine ⟨⟨fun h => ?_, ?_⟩, fun place h => ?_⟩
  · obtain ⟨place, hplace⟩ := Option.isSome_iff_exists.mp h
    exact exists_of_location? hplace
  · rintro ⟨pre, rest, hrest, hnames, hlater⟩
    exact isSome_location? hrest hnames hlater
  · obtain ⟨pre, post, hspan⟩ := exists_isPlaceSpan h
    have hinfix : place <:+: t := ⟨pre, post, by rw [hspan.eq, List.append_assoc]⟩
    exact ⟨location?_ne_nil h, isTrimmed_of_location? h, hinfix, forall_mem_location? h⟩

theorem places_are_found_unless_hidden_depot :
    (∃ pre rest, IsPreposition (utf8 "deduct 3 at , in\tlocation Depot-2 at  .") pre rest ∧
      NamesPlace rest ∧
      ∀ pre' rest', IsPreposition (utf8 "deduct 3 at , in\tlocation Depot-2 at  .") pre' rest' →
        HidesPlace rest' → pre.length < pre'.length) ∧
    location? (utf8 "deduct 3 at , in\tlocation Depot-2 at  .") = some (utf8 "Depot-2 at") ∧
    (utf8 "Depot-2 at").IsTrimmed := by
  have hfound : location? (utf8 "deduct 3 at , in\tlocation Depot-2 at  .") =
      some (utf8 "Depot-2 at") := by
    decide +kernel
  obtain ⟨hiff, hform⟩ :=
    places_are_found_unless_hidden (utf8 "deduct 3 at , in\tlocation Depot-2 at  .")
  obtain ⟨-, htrimmed, -⟩ := hform (utf8 "Depot-2 at") hfound
  exact ⟨hiff.mp (by rw [hfound]; rfl), hfound, htrimmed⟩

/-- A preposition with two blanks before a comma hides the place behind the next one. The word
`location` at the end of a request hides itself. -/
theorem place_hidden_by_preposition :
    ((∃ pre rest, IsPreposition (utf8 "set stock to 5 at  , in Berlin") pre rest ∧
        NamesPlace rest) ∧
      location? (utf8 "set stock to 5 at  , in Berlin") = none) ∧
    (∃ pre rest, IsPreposition (utf8 "set stock to 5 at location  ") pre rest ∧ NamesPlace rest) ∧
      location? (utf8 "set stock to 5 at location  ") = none := by
  have hin : IsPreposition (utf8 "set stock to 5 at  , in Berlin") (utf8 "set stock to 5 at  , ")
      (utf8 " Berlin") :=
    ⟨⟨utf8 "in", by decide +kernel, utf8 "in", by decide +kernel, rfl⟩, by decide +kernel⟩
  have hberlin : NamesPlace (utf8 " Berlin") :=
    ⟨utf8 " ", 66, utf8 "erlin", by decide +kernel, by decide +kernel, by decide +kernel,
      .inl (by decide +kernel)⟩
  have hat : IsPreposition (utf8 "set stock to 5 at location  ") (utf8 "set stock to 5 ")
      (utf8 " location  ") :=
    ⟨⟨utf8 "at", by decide +kernel, utf8 "at", by decide +kernel, rfl⟩, by decide +kernel⟩
  have hlocation : NamesPlace (utf8 " location  ") :=
    ⟨utf8 " ", 108, utf8 "ocation  ", by decide +kernel, by decide +kernel, by decide +kernel,
      .inl (by decide +kernel)⟩
  exact ⟨⟨⟨_, _, hin, hberlin⟩, by decide +kernel⟩, ⟨_, _, hat, hlocation⟩, by decide +kernel⟩

end CatalogEdit.Mention
