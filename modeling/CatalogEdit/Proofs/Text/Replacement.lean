import CatalogEdit.Proofs.Text.Remnant

/-!
# Words replaced by spaces

To remove a word is to read the text as occurrences of the word and single bytes, and to write one
space for every occurrence and every other byte as it is. If the word is made of word bytes, the
occurrences are the longest runs of word bytes that are the word.

## Main definitions

* `Text.IsPartition` — a text read as occurrences of a word and single bytes.
* `Text.FoundBetween` — an occurrence, and what stands before and behind it.
* `Text.IsRunBetween` — a longest run of word bytes, and what stands before and behind it.
* `Text.FindsRuns` — what is found are the runs that are the word.

## Main statements

* `Text.isRunBetween_cons_iff`, `Text.isRunBetween_append_iff` — the runs of a text, run by run.
* `Text.exists_isPartition`, `Text.exists_findsRuns` — how a text is read.
* `Text.words_give_way_to_spaces` — what is left of a text, and what is replaced in it.
-/

namespace CatalogEdit.Text

variable {word run pre post rest t : Text} {before : Option UInt8} {parts : List (Piece Text)}

/-! ## Parts of a text -/

/-- What is read as a part of a text. -/
def sourceOf : Piece Text → Text
  | .byte b => [b]
  | .found run => run

/-- The text is read as occurrences of `word`, in any case of its letters, and single bytes. -/
structure IsPartition (word t : Text) (parts : List (Piece Text)) : Prop where
  source : parts.flatMap sourceOf = t
  found : ∀ run, .found run ∈ parts → lower run = lower word

/-- The occurrence `run` is read between `pre` and `post`. -/
def FoundBetween (parts : List (Piece Text)) (pre run post : Text) : Prop :=
  ∃ before after, parts = before ++ .found run :: after ∧ before.flatMap sourceOf = pre ∧
    after.flatMap sourceOf = post

/-- A longest run of word bytes stands in `t` between `pre` and `post`. -/
structure IsRunBetween (run pre post t : Text) : Prop where
  eq : t = pre ++ (run ++ post)
  ne_nil : run ≠ []
  isWord : ∀ b ∈ run, Byte.isWord b
  before : isWordEdge pre.getLast?
  after : isWordEdge post.head?

theorem isPartition_nil (word : Text) : IsPartition word [] [] where
  source := rfl
  found _ hmem := absurd hmem List.not_mem_nil

theorem IsPartition.byte_cons (h : IsPartition word t parts) (b : UInt8) :
    IsPartition word (b :: t) (.byte b :: parts) where
  source := congrArg (b :: ·) h.source
  found run hmem := h.found run (by simpa using hmem)

theorem IsPartition.found_cons (h : IsPartition word t parts) (hrun : lower run = lower word) :
    IsPartition word (run ++ t) (.found run :: parts) where
  source := congrArg (run ++ ·) h.source
  found run' hmem := by
    rcases List.mem_cons.mp hmem with heq | hmem
    · rwa [Piece.found.inj heq]
    · exact h.found run' hmem

theorem IsPartition.map_byte_append (h : IsPartition word t parts) (kept : Text) :
    IsPartition word (kept ++ t) (kept.map .byte ++ parts) := by
  induction kept with
  | nil => exact h
  | cons b kept ih => exact ih.byte_cons b

theorem not_foundBetween_nil : ¬ FoundBetween [] pre run post := by
  rintro ⟨before, after, heq, -⟩
  simp at heq

/-- An occurrence is the first part, or it is read behind it. -/
theorem foundBetween_cons_iff {part : Piece Text} :
    FoundBetween (part :: parts) pre run post ↔
      (part = .found run ∧ pre = [] ∧ parts.flatMap sourceOf = post) ∨
        ∃ pre', pre = sourceOf part ++ pre' ∧ FoundBetween parts pre' run post := by
  constructor
  · rintro ⟨before, after, heq, rfl, rfl⟩
    cases before with
    | nil =>
      obtain ⟨rfl, rfl⟩ := List.cons.inj heq
      exact .inl ⟨rfl, rfl, rfl⟩
    | cons part' before =>
      obtain ⟨rfl, rfl⟩ := List.cons.inj heq
      exact .inr ⟨_, List.flatMap_cons, before, after, rfl, rfl, rfl⟩
  · rintro (⟨rfl, rfl, hpost⟩ | ⟨pre', rfl, before, after, rfl, rfl, hpost⟩)
    · exact ⟨[], parts, rfl, rfl, hpost⟩
    · exact ⟨part :: before, after, rfl, List.flatMap_cons, hpost⟩

theorem foundBetween_byte_cons_iff {b : UInt8} :
    FoundBetween (.byte b :: parts) pre run post ↔
      ∃ pre', pre = b :: pre' ∧ FoundBetween parts pre' run post := by
  simp [foundBetween_cons_iff, sourceOf]

theorem foundBetween_map_byte_append_iff {kept : Text} :
    FoundBetween (kept.map .byte ++ parts) pre run post ↔
      ∃ pre', pre = kept ++ pre' ∧ FoundBetween parts pre' run post := by
  induction kept generalizing pre with
  | nil => simp
  | cons b kept ih =>
    rw [List.map_cons, List.cons_append, foundBetween_byte_cons_iff]
    constructor
    · rintro ⟨kept', rfl, hkept⟩
      obtain ⟨pre', rfl, hfound⟩ := ih.mp hkept
      exact ⟨pre', rfl, hfound⟩
    · rintro ⟨pre', rfl, hfound⟩
      exact ⟨kept ++ pre', rfl, ih.mpr ⟨pre', rfl, hfound⟩⟩

/-! ## Longest runs -/

/-- A longest run of word bytes that is a given word stands alone. -/
theorem IsRunBetween.standsAlone (h : IsRunBetween run pre post t) (hrun : lower run = lower word) :
    StandsAlone word t :=
  ⟨pre, post, ⟨run, by rw [h.eq, List.append_assoc], hrun⟩, h.before, h.after⟩

theorem not_isRunBetween_nil : ¬ IsRunBetween run pre post [] := by
  intro h
  obtain ⟨-, hrest⟩ := List.append_eq_nil_iff.mp h.eq.symm
  exact h.ne_nil (List.append_eq_nil_iff.mp hrest).1

/-- A longest run does not begin beside a byte of a word. -/
theorem IsRunBetween.isWordEdge_head?_eq_false (h : IsRunBetween run [] post t) :
    isWordEdge t.head? = false := by
  obtain ⟨heq, hne, hword, -, -⟩ := h
  cases run with
  | nil => contradiction
  | cons b run => simp [heq, hword b List.mem_cons_self]

/-- The runs behind a byte that belongs to no word. -/
theorem isRunBetween_cons_iff {b : UInt8} (hb : Byte.isWord b = false) :
    IsRunBetween run pre post (b :: rest) ↔
      ∃ pre', pre = b :: pre' ∧ IsRunBetween run pre' post rest := by
  constructor
  · intro h
    cases pre with
    | nil =>
      have hedge := h.isWordEdge_head?_eq_false
      simp [hb] at hedge
    | cons c pre =>
      obtain ⟨rfl, heq⟩ := List.cons.inj h.eq
      refine ⟨pre, rfl, heq, h.ne_nil, h.isWord, ?_, h.after⟩
      have hedge := h.before
      cases pre with
      | nil => rfl
      | cons c pre => rwa [List.getLast?_cons_cons] at hedge
  · rintro ⟨pre', rfl, h⟩
    refine ⟨congrArg (b :: ·) h.eq, h.ne_nil, h.isWord, ?_, h.after⟩
    cases pre' with
    | nil => simpa using hb
    | cons c pre' => simpa [List.getLast?_cons_cons] using h.before

/-- The runs of a text that begins with a run. -/
theorem isRunBetween_append_iff {first : Text} (hne : first ≠ [])
    (hfirst : ∀ b ∈ first, Byte.isWord b) (hrest : isWordEdge rest.head?) :
    IsRunBetween run pre post (first ++ rest) ↔
      (run = first ∧ pre = [] ∧ rest = post) ∨
        ∃ pre', pre = first ++ pre' ∧ IsRunBetween run pre' post rest := by
  constructor
  · intro h
    have heq := h.eq
    by_cases hpre : pre = []
    · subst hpre
      have hsame : run = first := by
        rw [← takeWhile_isWord_append h.isWord h.after, ← List.nil_append (run ++ post), ← heq,
          takeWhile_isWord_append hfirst hrest]
      subst hsame
      exact .inl ⟨rfl, rfl, List.append_cancel_left heq⟩
    rcases List.append_eq_append_iff.mp heq with ⟨gap, rfl, hgap⟩ | ⟨gap, rfl, -⟩
    · refine .inr ⟨gap, rfl, hgap, h.ne_nil, h.isWord, ?_, h.after⟩
      cases gap with
      | nil => rfl
      | cons c gap =>
        have hedge := h.before
        rwa [List.getLast?_append_of_ne_nil _ (List.cons_ne_nil c gap)] at hedge
    · -- The last byte before the run would belong to the first run.
      have hlast := isWord_eq_false_of_isWordEdge h.before (List.getLast?_eq_some_getLast hpre)
      rw [hfirst _ (List.mem_append_left _ (List.getLast_mem hpre))] at hlast
      contradiction
  · rintro (⟨rfl, rfl, rfl⟩ | ⟨pre', rfl, h⟩)
    · exact ⟨rfl, hne, hfirst, rfl, hrest⟩
    · refine ⟨by rw [h.eq, List.append_assoc], h.ne_nil, h.isWord, ?_, h.after⟩
      have hpre : pre' ≠ [] := by
        rintro rfl
        simp [h.isWordEdge_head?_eq_false] at hrest
      rw [List.getLast?_append_of_ne_nil _ hpre]
      exact h.before

/-- The occurrences that are read are the longest runs of word bytes that are the word. -/
def FindsRuns (word t : Text) (parts : List (Piece Text)) : Prop :=
  ∀ pre run post, FoundBetween parts pre run post ↔
    IsRunBetween run pre post t ∧ lower run = lower word

theorem findsRuns_nil (word : Text) : FindsRuns word [] [] := fun pre run post => by
  simp [not_foundBetween_nil, not_isRunBetween_nil]

theorem FindsRuns.byte_cons (h : FindsRuns word t parts) {b : UInt8} (hb : Byte.isWord b = false) :
    FindsRuns word (b :: t) (.byte b :: parts) := by
  intro pre run post
  simp only [foundBetween_byte_cons_iff, isRunBetween_cons_iff hb, h _ run post, exists_and_right,
    ← and_assoc]

section

variable {first : Text} (hne : first ≠ []) (hfirst : ∀ b ∈ first, Byte.isWord b)
  (hrest : isWordEdge rest.head?) (h : FindsRuns word rest parts)
include hne hfirst hrest h

theorem FindsRuns.found_cons (hsource : parts.flatMap sourceOf = rest)
    (hsame : lower first = lower word) :
    FindsRuns word (first ++ rest) (.found first :: parts) := by
  intro pre run post
  rw [foundBetween_cons_iff, isRunBetween_append_iff hne hfirst hrest, hsource]
  constructor
  · rintro (⟨heq, hpre, hpost⟩ | ⟨pre', hpre, hfound⟩)
    · obtain rfl := Piece.found.inj heq
      exact ⟨.inl ⟨rfl, hpre, hpost⟩, hsame⟩
    · obtain ⟨hrun, hlower⟩ := (h pre' run post).mp hfound
      exact ⟨.inr ⟨pre', hpre, hrun⟩, hlower⟩
  · rintro ⟨⟨rfl, hpre, hpost⟩ | ⟨pre', hpre, hrun⟩, hlower⟩
    · exact .inl ⟨rfl, hpre, hpost⟩
    · exact .inr ⟨pre', hpre, (h pre' run post).mpr ⟨hrun, hlower⟩⟩

theorem FindsRuns.map_byte_append (hother : lower first ≠ lower word) :
    FindsRuns word (first ++ rest) (first.map .byte ++ parts) := by
  intro pre run post
  rw [foundBetween_map_byte_append_iff, isRunBetween_append_iff hne hfirst hrest]
  constructor
  · rintro ⟨pre', hpre, hfound⟩
    obtain ⟨hrun, hlower⟩ := (h pre' run post).mp hfound
    exact ⟨.inr ⟨pre', hpre, hrun⟩, hlower⟩
  · rintro ⟨⟨rfl, -⟩ | ⟨pre', hpre, hrun⟩, hlower⟩
    · exact absurd hlower hother
    · exact ⟨pre', hpre, (h pre' run post).mpr ⟨hrun, hlower⟩⟩

end

/-! ## How a text is read -/

/-- What is left is written part by part. -/
theorem exists_isPartition (hne : word ≠ []) (before : Option UInt8) (t : Text) :
    ∃ parts, IsPartition word t parts ∧ removeFrom word before t = parts.map byteOf := by
  induction hlength : t.length using Nat.strong_induction_on generalizing before t with
  | _ n ih =>
    cases t with
    | nil => exact ⟨[], isPartition_nil word, rfl⟩
    | cons b rest =>
      cases hstands : standsAtHead word before (b :: rest) with
      | true =>
        obtain ⟨-, found, behind, heq, hfound, -⟩ := standsAtHead_iff.mp hstands
        have hsame := length_eq_of_lower_eq hfound
        have hpos := List.length_pos_of_ne_nil hne
        have hshort : behind.length < n := by
          rw [← hlength, heq, List.length_append]
          omega
        obtain ⟨parts, hparts, hleft⟩ := ih _ hshort (some Byte.space) behind rfl
        refine ⟨.found found :: parts, heq ▸ hparts.found_cons hfound, ?_⟩
        rw [removeFrom_of_standsAtHead hne hstands, heq, ← hsame, List.drop_left, hleft]
        rfl
      | false =>
        obtain ⟨parts, hparts, hleft⟩ := ih rest.length (by simp [← hlength]) (some b) rest rfl
        refine ⟨.byte b :: parts, hparts.byte_cons b, ?_⟩
        rw [removeFrom_cons hstands, hleft]
        rfl

/-- A word of word bytes is found run by run. -/
theorem exists_findsRuns (hne : word ≠ []) (hword : ∀ b ∈ word, Byte.isWord b) (t : Text) :
    ∃ parts, IsPartition word t parts ∧ removeWord word t = parts.map byteOf ∧
      FindsRuns word t parts := by
  rw [removeWord_eq_blankRuns hne hword]
  induction t using run_induction with
  | nil => exact ⟨[], isPartition_nil word, rfl, findsRuns_nil word⟩
  | other b rest hb ih =>
    obtain ⟨parts, hparts, hleft, hfinds⟩ := ih
    refine ⟨.byte b :: parts, hparts.byte_cons b, ?_, hfinds.byte_cons hb⟩
    rw [blankRuns_cons _ hb, hleft]
    rfl
  | word first rest hfirstne hfirst hrest ih =>
    obtain ⟨parts, hparts, hleft, hfinds⟩ := ih
    rw [blankRuns_append_of_isWord _ hfirstne hfirst hrest, hleft]
    by_cases hsame : lower first = lower word
    · rw [if_pos (by simpa using hsame)]
      exact ⟨.found first :: parts, hparts.found_cons hsame, rfl,
        hfinds.found_cons hfirstne hfirst hrest hparts.source hsame⟩
    · rw [if_neg (by simpa using hsame)]
      refine ⟨first.map .byte ++ parts, hparts.map_byte_append first, ?_,
        hfinds.map_byte_append hfirstne hfirst hrest hsame⟩
      rw [List.map_append, List.map_map]
      exact congrArg (· ++ _) (List.map_id first).symm

/-! ## What is left -/

theorem isPhrase_of_isWord (hne : word ≠ []) (hword : ∀ b ∈ word, Byte.isWord b) :
    isPhrase word := by
  have hchain : word.Pairwise fun a b => (Byte.isWord a || Byte.isWord b) = true :=
    List.pairwise_of_forall_mem_list fun a ha b _ => by rw [hword a ha, Bool.true_or]
  rw [isPhrase_iff, List.head?_eq_some_head hne, List.getLast?_eq_some_getLast hne]
  exact ⟨hword _ (List.head_mem hne), hword _ (List.getLast_mem hne), hchain.isChain⟩

theorem removeWord_removeWord (hne : word ≠ []) (hword : ∀ b ∈ word, Byte.isWord b) (t : Text) :
    removeWord word (removeWord word t) = removeWord word t := by
  rw [removeWord_eq_blankRuns hne hword, removeWord_eq_blankRuns hne hword, blankRuns_blankRuns]
  simp only [Bool.or_self]

/-- What is left of a text is the text with one space for each of some occurrences of the word that
do not overlap, and with every other byte as it was. If the word is made of word bytes, the
occurrences are the longest runs of word bytes that are the word. No such run is left, so nothing
more can be removed. -/
theorem words_give_way_to_spaces (hne : word ≠ []) (t : Text) :
    ∃ parts, IsPartition word t parts ∧ removeWord word t = parts.map byteOf ∧
      ((∀ b ∈ word, Byte.isWord b) →
        FindsRuns word t parts ∧
        (∀ pre run post, IsRunBetween run pre post (removeWord word t) →
          lower run ≠ lower word) ∧
        removeWord word (removeWord word t) = removeWord word t) := by
  by_cases hword : ∀ b ∈ word, Byte.isWord b
  · obtain ⟨parts, hparts, hleft, hfinds⟩ := exists_findsRuns hne hword t
    refine ⟨parts, hparts, hleft, fun _ => ⟨hfinds, fun pre run post hrun hlower => ?_,
      removeWord_removeWord hne hword t⟩⟩
    exact not_standsAlone_removeWord (isPhrase_of_isWord hne hword) t (hrun.standsAlone hlower)
  · obtain ⟨parts, hparts, hleft⟩ := exists_isPartition hne none t
    exact ⟨parts, hparts, (removeWord_eq_removeFrom word t).trans hleft,
      fun h => absurd h hword⟩

theorem words_give_way_to_spaces_tag :
    utf8 "tag" ≠ [] ∧ (∀ b ∈ utf8 "tag", Byte.isWord b) ∧
    ∃ parts, IsPartition (utf8 "tag") (utf8 "Tag mugs: TAG-tagged") parts ∧
      utf8 "  mugs:  -tagged" = parts.map byteOf ∧
      FoundBetween parts (utf8 "Tag mugs: ") (utf8 "TAG") (utf8 "-tagged") := by
  have hne : utf8 "tag" ≠ [] := by decide +kernel
  have hword : ∀ b ∈ utf8 "tag", Byte.isWord b := by decide +kernel
  have hleft : removeWord (utf8 "tag") (utf8 "Tag mugs: TAG-tagged") = utf8 "  mugs:  -tagged" := by
    decide +kernel
  have hrun : IsRunBetween (utf8 "TAG") (utf8 "Tag mugs: ") (utf8 "-tagged")
      (utf8 "Tag mugs: TAG-tagged") :=
    ⟨by decide +kernel, by decide +kernel, by decide +kernel, by decide +kernel, by decide +kernel⟩
  obtain ⟨parts, hparts, hmap, hruns⟩ :=
    words_give_way_to_spaces hne (utf8 "Tag mugs: TAG-tagged")
  obtain ⟨hfinds, -⟩ := hruns hword
  exact ⟨hne, hword, parts, hparts, hleft.symm.trans hmap,
    (hfinds _ _ _).mpr ⟨hrun, by decide +kernel⟩⟩

end CatalogEdit.Text
