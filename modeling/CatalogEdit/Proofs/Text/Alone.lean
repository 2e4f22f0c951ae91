import CatalogEdit.Proofs.Text.Removal
import CatalogEdit.Proofs.Text.Words

/-!
# Words and phrases that stand alone

A word or phrase stands alone in a text where a word edge is on either side of it. A phrase is made
of words with one other byte between two of them. Removing words from a text brings no phrase about
that was not in it before, and the phrase that is removed is gone for good.

## Main definitions

* `Text.StandsBetween`, `Text.StandsAlone` — a word in a text, in any case of its letters.
* `Text.isPhrase` — words with a single other byte between them.
* `Text.HasBetweenEdges` — a part of a text with an edge on either side, for edges of any kind.

## Main statements

* `Text.exists_of_removeFrom_eq` — where a phrase of the result comes from.
* `Text.not_standsAlone_removeWords` — no removed phrase is left.
* `Text.standsAlone_collapse` — words without blanks after blanks are collapsed.
-/

namespace CatalogEdit.Text

/-! ## Occurrences -/

/-- The word stands in `t` between `pre` and `post`, with a word edge on either side. -/
structure StandsBetween (word pre post t : Text) : Prop where
  eq : ∃ found, t = pre ++ found ++ post ∧ lower found = lower word
  before : isWordEdge pre.getLast?
  after : isWordEdge post.head?

/-- The word stands alone somewhere in `t`. -/
def StandsAlone (word t : Text) : Prop := ∃ pre post, StandsBetween word pre post t

/-- Words with one other byte between two of them. -/
def isPhrase (t : Text) : Bool :=
  t.head?.any Byte.isWord && t.getLast?.any Byte.isWord &&
    decide (t.IsChain fun a b => Byte.isWord a || Byte.isWord b)

variable {word phrase t : Text} {before : Option UInt8}

theorem isPhrase_iff :
    isPhrase t ↔ t.head?.any Byte.isWord ∧ t.getLast?.any Byte.isWord ∧
      t.IsChain fun a b => Byte.isWord a || Byte.isWord b := by
  simp only [isPhrase, Bool.and_eq_true, decide_eq_true_eq, and_assoc]

theorem isPhrase_lower (t : Text) : isPhrase (lower t) = isPhrase t := by
  have hlast : (lower t).getLast? = t.getLast?.map Byte.lower := List.getLast?_map
  have hany : ∀ neighbour : Option UInt8,
      (neighbour.map Byte.lower).any Byte.isWord = neighbour.any Byte.isWord := by
    intro neighbour
    cases neighbour with
    | none => rfl
    | some b => exact Byte.ignoresCase_isWord b
  have hchain : (lower t).IsChain (fun a b => Byte.isWord a || Byte.isWord b) ↔
      t.IsChain fun a b => Byte.isWord a || Byte.isWord b := by
    rw [lower, List.isChain_map]
    simp only [Byte.ignoresCase_isWord _]
  simp only [isPhrase, hlast, head?_lower, hany, hchain]

theorem isPhrase_of_lower_eq {found : Text} (h : lower found = lower phrase)
    (hphrase : isPhrase phrase) : isPhrase found := by
  rwa [← isPhrase_lower, h, isPhrase_lower]

theorem isWordEdge_head?_append_of_isPhrase (h : isPhrase phrase) (rest : Text) :
    isWordEdge (phrase ++ rest).head? = false := by
  obtain ⟨hhead, -⟩ := isPhrase_iff.mp h
  cases phrase with
  | nil => simp at hhead
  | cons b phrase => simpa using hhead

/-! ## Phrases of what is left -/

/-- Within a phrase of the result nothing was removed, since the space for it would have a byte
beside it that belongs to no word either. So the phrase was there before, and the next byte is the
next byte of the text. -/
theorem exists_of_removeFrom_some {last : UInt8} {found post : Text}
    (hne : word ≠ []) (hlast : (last :: found).getLast?.any Byte.isWord)
    (hchain : (last :: found).IsChain fun a b => Byte.isWord a || Byte.isWord b)
    (h : removeFrom word (some last) t = found ++ post) :
    ∃ post', t = found ++ post' ∧ post'.head? = post.head? := by
  induction found generalizing last t with
  | nil =>
    have hedge : isWordEdge (some last) = false := by simpa using hlast
    refine ⟨t, rfl, ?_⟩
    rw [← List.nil_append post, ← h]
    cases t with
    | nil => rfl
    | cons b rest => rw [removeFrom_cons (standsAtHead_eq_false_of_not_isWordEdge hedge _)]; rfl
  | cons c found ih =>
    obtain ⟨hpair, hrest⟩ := List.isChain_cons_cons.mp hchain
    cases t with
    | nil => simp at h
    | cons b rest =>
      cases hstands : standsAtHead word (some last) (b :: rest) with
      | true =>
        rw [removeFrom_of_standsAtHead hne hstands] at h
        obtain ⟨rfl, -⟩ := List.cons.inj h
        have hedge := (standsAtHead_iff.mp hstands).1
        have hspace : Byte.isWord Byte.space = false := by decide
        simp [isWord_eq_false_of_isWordEdge hedge rfl, hspace] at hpair
      | false =>
        rw [removeFrom_cons hstands, List.cons_append, List.cons.injEq] at h
        obtain ⟨rfl, h⟩ := h
        obtain ⟨post', rfl, hpost⟩ := ih (by simpa using hlast) hrest h
        exact ⟨post', rfl, hpost⟩

/-- A phrase at the head of the result was at the head of the text, and it is not removed. -/
theorem exists_of_removeFrom_eq_append {found post : Text} (hne : word ≠ [])
    (hphrase : isPhrase found) (h : removeFrom word before t = found ++ post) :
    standsAtHead word before t = false ∧
      ∃ post', t = found ++ post' ∧ post'.head? = post.head? := by
  obtain ⟨hhead, hlast, hchain⟩ := isPhrase_iff.mp hphrase
  cases found with
  | nil => simp at hhead
  | cons b found =>
    have hstands : standsAtHead word before t = false := by
      refine Bool.eq_false_iff.mpr fun hstands => ?_
      rw [removeFrom_of_standsAtHead hne hstands] at h
      obtain ⟨rfl, -⟩ := List.cons.inj h
      have hspace : Byte.isWord Byte.space = false := by decide
      simp [hspace] at hhead
    refine ⟨hstands, ?_⟩
    cases t with
    | nil => simp at h
    | cons c rest =>
      rw [removeFrom_cons hstands, List.cons_append, List.cons.injEq] at h
      obtain ⟨rfl, h⟩ := h
      obtain ⟨post', rfl, hpost⟩ := exists_of_removeFrom_some hne hlast hchain h
      exact ⟨post', rfl, hpost⟩

/-- A phrase of the result was in the text between the same neighbours, and the word that is removed
did not stand there. -/
theorem exists_of_removeFrom_eq {pre found post : Text} (hne : word ≠ [])
    (hphrase : isPhrase found) (h : removeFrom word before t = pre ++ found ++ post) :
    ∃ pre' post', t = pre' ++ found ++ post' ∧ pre'.getLast? = pre.getLast? ∧
      post'.head? = post.head? ∧
      standsAtHead word (pre.getLast?.or before) (found ++ post') = false := by
  induction pre generalizing before t with
  | nil =>
    obtain ⟨hstands, post', rfl, hpost⟩ := exists_of_removeFrom_eq_append hne hphrase h
    exact ⟨[], post', rfl, rfl, hpost, hstands⟩
  | cons x pre ih =>
    cases t with
    | nil => simp at h
    | cons b rest =>
      cases hstands : standsAtHead word before (b :: rest) with
      | true =>
        rw [removeFrom_of_standsAtHead hne hstands, List.cons_append, List.cons_append,
          List.cons.injEq] at h
        obtain ⟨rfl, h⟩ := h
        obtain ⟨pre', post', hrest, hlast, hhead, hnot⟩ := ih h
        cases pre with
        | nil =>
          -- A word edge is behind what was removed, but a phrase begins with a word.
          obtain rfl : pre' = [] := List.getLast?_eq_none_iff.mp hlast
          have hedge : isWordEdge ((b :: rest).drop word.length).head? := by
            simp only [standsAtHead, Bool.and_eq_true] at hstands
            exact hstands.2
          rw [hrest, List.nil_append, isWordEdge_head?_append_of_isPhrase hphrase] at hedge
          contradiction
        | cons y pre =>
          have hne' : pre' ≠ [] := fun hnil => by simp [hnil, List.getLast?_cons] at hlast
          refine ⟨(b :: rest).take word.length ++ pre', post', ?_, ?_, hhead, ?_⟩
          · rw [List.append_assoc, List.append_assoc, ← List.append_assoc pre', ← hrest,
              List.take_append_drop]
          · rw [List.getLast?_append_of_ne_nil _ hne', hlast, List.getLast?_cons_cons]
          · simpa [List.getLast?_cons] using hnot
      | false =>
        rw [removeFrom_cons hstands, List.cons_append, List.cons_append, List.cons.injEq] at h
        obtain ⟨rfl, h⟩ := h
        obtain ⟨pre', post', rfl, hlast, hhead, hnot⟩ := ih h
        refine ⟨b :: pre', post', rfl, ?_, hhead, ?_⟩
        · simp only [List.getLast?_cons, hlast]
        · cases pre <;> simpa [List.getLast?_cons] using hnot

/-! ## No phrase is left -/

/-- Removing a word brings no phrase about. -/
theorem StandsAlone.of_removeWord (hne : word ≠ []) (hphrase : isPhrase phrase)
    (h : StandsAlone phrase (removeWord word t)) : StandsAlone phrase t := by
  obtain ⟨pre, post, ⟨found, heq, hfound⟩, hbefore, hafter⟩ := h
  obtain ⟨pre', post', rfl, hlast, hhead, -⟩ :=
    exists_of_removeFrom_eq hne (isPhrase_of_lower_eq hfound hphrase)
      ((removeWord_eq_removeFrom word t).symm.trans heq)
  exact ⟨pre', post', ⟨found, rfl, hfound⟩, hlast ▸ hbefore, hhead ▸ hafter⟩

theorem StandsAlone.of_removeWords {words : List Text} (hne : ∀ word ∈ words, word ≠ [])
    (hphrase : isPhrase phrase) (h : StandsAlone phrase (removeWords words t)) :
    StandsAlone phrase t := by
  induction words generalizing t with
  | nil => exact h
  | cons word words ih =>
    obtain ⟨hword, hwords⟩ := List.forall_mem_cons.mp hne
    exact (ih hwords h).of_removeWord hword hphrase

/-- A phrase that is removed stands alone nowhere any more. -/
theorem not_standsAlone_removeWord (hphrase : isPhrase phrase) (t : Text) :
    ¬ StandsAlone phrase (removeWord phrase t) := by
  have hne : phrase ≠ [] := by
    rintro rfl
    exact absurd hphrase (by decide)
  rintro ⟨pre, post, ⟨found, heq, hfound⟩, hbefore, hafter⟩
  obtain ⟨pre', post', -, -, hhead, hnot⟩ :=
    exists_of_removeFrom_eq hne (isPhrase_of_lower_eq hfound hphrase)
      ((removeWord_eq_removeFrom phrase t).symm.trans heq)
  have hedge : isWordEdge (pre.getLast?.or none) := by rwa [Option.or_none]
  rw [standsAtHead_iff.mpr ⟨hedge, found, post', rfl, hfound, hhead ▸ hafter⟩] at hnot
  contradiction

theorem not_standsAlone_removeWords {words : List Text} (hne : ∀ word ∈ words, word ≠ [])
    (hmem : phrase ∈ words) (hphrase : isPhrase phrase) (t : Text) :
    ¬ StandsAlone phrase (removeWords words t) := by
  obtain ⟨earlier, later, rfl⟩ := List.append_of_mem hmem
  have hlater : ∀ word ∈ later, word ≠ [] := fun word hword => hne word (by simp [hword])
  rw [removeWords, List.foldl_append, List.foldl_cons]
  exact fun h => not_standsAlone_removeWord hphrase _ (h.of_removeWords hlater hphrase)

/-! ## Texts that are cut -/

/-- What does not hold a byte of the text ends before it or begins behind it. -/
theorem left_or_right_of_notMem {b : UInt8} {t u pre found post : Text} (hb : b ∉ found)
    (h : t ++ b :: u = pre ++ (found ++ post)) :
    (∃ gap, t = pre ++ found ++ gap ∧ post = gap ++ b :: u) ∨
      ∃ gap, pre = t ++ b :: gap ∧ u = gap ++ (found ++ post) := by
  rcases List.append_eq_append_iff.mp h with ⟨gap, rfl, hgap⟩ | ⟨gap, rfl, hgap⟩
  · cases gap with
    | nil =>
      cases found with
      | nil => exact .inl ⟨[], by simp, hgap.symm⟩
      | cons c found =>
        obtain ⟨rfl, -⟩ := List.cons.inj hgap
        exact absurd List.mem_cons_self hb
    | cons c gap =>
      obtain ⟨rfl, rfl⟩ := List.cons.inj hgap
      exact .inr ⟨gap, rfl, rfl⟩
  · rcases List.append_eq_append_iff.mp hgap with ⟨gap', rfl, hpost⟩ | ⟨gap', rfl, hpost⟩
    · exact .inl ⟨gap', by simp, hpost⟩
    · cases gap' with
      | nil => exact .inl ⟨[], by simp, hpost.symm⟩
      | cons c gap' =>
        obtain ⟨rfl, -⟩ := List.cons.inj hpost
        exact absurd (List.mem_append_right _ List.mem_cons_self) hb

/-- A part of a given kind stands in `t` with an edge on either side: the end of the text, or a byte
at which parts end. -/
def HasBetweenEdges (isEdge : UInt8 → Bool) (isPart : Text → Prop) (t : Text) : Prop :=
  ∃ pre part post, t = pre ++ (part ++ post) ∧ isPart part ∧ pre.getLast?.all isEdge ∧
    post.head?.all isEdge

/-- Parts that hold no byte `b` stand on one side of it, if `b` itself is an edge. -/
theorem hasBetweenEdges_append_cons_iff {isEdge : UInt8 → Bool} {isPart : Text → Prop} {b : UInt8}
    (hb : isEdge b) (hpart : ∀ part, isPart part → b ∉ part) (t u : Text) :
    HasBetweenEdges isEdge isPart (t ++ b :: u) ↔
      HasBetweenEdges isEdge isPart t ∨ HasBetweenEdges isEdge isPart u := by
  have hhead : ∀ t : Text, (t ++ b :: u).head?.all isEdge = t.head?.all isEdge := by
    intro t
    cases t <;> simp [hb]
  have hlast : ∀ u : Text, (t ++ b :: u).getLast?.all isEdge = u.getLast?.all isEdge := by
    intro u
    rw [List.getLast?_append_of_ne_nil t (List.cons_ne_nil b u)]
    cases u <;> simp [hb, List.getLast?_cons]
  constructor
  · rintro ⟨pre, part, post, heq, hmem, hbefore, hafter⟩
    rcases left_or_right_of_notMem (hpart part hmem) heq with ⟨gap, rfl, rfl⟩ | ⟨gap, rfl, rfl⟩
    · exact .inl ⟨pre, part, gap, List.append_assoc _ _ _, hmem, hbefore, hhead gap ▸ hafter⟩
    · exact .inr ⟨gap, part, post, rfl, hmem, hlast gap ▸ hbefore, hafter⟩
  · rintro (⟨pre, part, post, rfl, hmem, hbefore, hafter⟩ |
      ⟨pre, part, post, rfl, hmem, hbefore, hafter⟩)
    · exact ⟨pre, part, post ++ b :: u, by simp, hmem, hbefore, (hhead post).symm ▸ hafter⟩
    · exact ⟨t ++ b :: pre, part, post, by simp, hmem, (hlast pre).symm ▸ hbefore, hafter⟩

theorem standsAlone_iff_hasBetweenEdges :
    StandsAlone word t ↔
      HasBetweenEdges (fun b => !Byte.isWord b) (fun found => lower found = lower word) t := by
  constructor
  · rintro ⟨pre, post, ⟨found, heq, hfound⟩, hbefore, hafter⟩
    exact ⟨pre, found, post, by rw [heq, List.append_assoc], hfound, hbefore, hafter⟩
  · rintro ⟨pre, found, post, heq, hfound, hbefore, hafter⟩
    exact ⟨pre, post, ⟨found, by rw [heq, List.append_assoc], hfound⟩, hbefore, hafter⟩

/-! ## Collapsed blanks -/

theorem isBlank_of_lower_eq {found : Text} (h : lower found = lower word)
    (hword : IsBlankFree word) : ∀ b ∈ found, Byte.isBlank b = false := by
  have hclass : Byte.IgnoresCase fun b => !Byte.isBlank b :=
    fun b => congrArg not (Byte.ignoresCase_isBlank b)
  simpa using forall_mem_of_lower_eq hclass h (by simpa using hword.isBlank)

/-- A word without blanks stands on one side of a blank. -/
theorem standsAlone_append_cons_iff (hword : IsBlankFree word) {b : UInt8} (hb : Byte.isBlank b)
    (t u : Text) : StandsAlone word (t ++ b :: u) ↔ StandsAlone word t ∨ StandsAlone word u := by
  have hnotMem : ∀ found, lower found = lower word → b ∉ found := fun found hfound hmem => by
    rw [isBlank_of_lower_eq hfound hword b hmem] at hb
    contradiction
  simp only [standsAlone_iff_hasBetweenEdges]
  exact hasBetweenEdges_append_cons_iff (by simp [isWord_of_isBlank hb]) hnotMem t u

theorem not_standsAlone_nil (hne : word ≠ []) : ¬ StandsAlone word [] := by
  rintro ⟨pre, post, ⟨found, heq, hfound⟩, -, -⟩
  simp only [List.nil_eq, List.append_eq_nil_iff] at heq
  obtain ⟨⟨-, rfl⟩, -⟩ := heq
  exact ne_nil_of_lower_eq hfound hne rfl

/-- Whether a word without blanks stands alone is seen word by word. -/
theorem standsAlone_iff_words (hword : IsBlankFree word) (t : Text) :
    StandsAlone word t ↔ ∃ w ∈ words t, StandsAlone word w := by
  induction t using blank_induction with
  | plain t ht =>
    rw [words_of_forall_not_isBlank ht]
    cases t with
    | nil => simpa using not_standsAlone_nil hword.ne_nil
    | cons b t => simp
  | blank t b u hb iht ihu =>
    simp only [standsAlone_append_cons_iff hword hb, words_append_cons hb, List.mem_append,
      or_and_right, exists_or, iht, ihu]

theorem standsAlone_collapse (hword : IsBlankFree word) (t : Text) :
    StandsAlone word (collapse t) ↔ StandsAlone word t := by
  rw [standsAlone_iff_words hword, words_collapse, ← standsAlone_iff_words hword]

end CatalogEdit.Text
