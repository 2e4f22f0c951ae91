import CatalogEdit.Proofs.Text.Alone
import CatalogEdit.Proofs.Text.Scan

/-!
# What is left of a text

A text from which occurrences were taken out is a remnant of the text it was: its bytes are bytes of
that text in their order, and since a space stands for everything that was taken out, nothing comes
about by bytes that move together. So what is gone stays gone, whatever is taken out afterwards.

## Main definitions

* `Text.IsRemnant` — what is left of a text.
* `Text.IsSingleSpaced` — single spaces between the words, and none at the ends.

## Main statements

* `Text.exists_of_blankOut_eq` — where a part of what is left comes from.
* `Text.isRemnant_blankOut`, `Text.isRemnant_removeWords`, `Text.isRemnant_collapse` — what is left
  after occurrences and words are taken out, and after blanks are collapsed.
* `Text.isSingleSpaced_collapse` — the blanks that are left after they are collapsed.
-/

namespace CatalogEdit.Text

variable {α : Type} {m : Matcher α} {before : Option UInt8} {t u v part pre post : Text}

/-- All bytes of `u` but its spaces are bytes of `t`, in their order, and what stands in `u` without
a space in it stands in `t`. -/
structure IsRemnant (t u : Text) : Prop where
  sublist : (u.filter (· != Byte.space)).Sublist t
  part : ∀ part, Byte.space ∉ part → part <:+: u → part <:+: t

theorem IsRemnant.refl (t : Text) : IsRemnant t t where
  sublist := List.filter_sublist
  part _ _ h := h

theorem IsRemnant.trans (h : IsRemnant t u) (h' : IsRemnant u v) : IsRemnant t v where
  sublist := by
    have hsublist := h'.sublist.filter (· != Byte.space)
    rw [List.filter_filter] at hsublist
    simp only [Bool.and_self] at hsublist
    exact hsublist.trans h.sublist
  part part hspace hpart := h.part part hspace (h'.part part hspace hpart)

theorem IsRemnant.mem (h : IsRemnant t u) {b : UInt8} (hb : b ≠ Byte.space) (hmem : b ∈ u) :
    b ∈ t :=
  h.sublist.subset (List.mem_filter.mpr ⟨hmem, by simpa using hb⟩)

/-! ## Occurrences taken out -/

/-- The byte that stands for a part of a scan. -/
def byteOf : Piece α → UInt8
  | .byte b => b
  | .found _ => Byte.space

theorem blankOut_eq_map (m : Matcher α) (t : Text) : blankOut m t = (pieces m t).map byteOf :=
  List.map_congr_left fun piece _ => by cases piece <;> rfl

/-- A part without spaces at the head of what is left was at the head of the text, and no occurrence
begins in it. -/
theorem exists_of_map_byteOf_eq_append (hspace : Byte.space ∉ part)
    (h : (piecesFrom m 0 before t).map byteOf = part ++ post) :
    ∃ post', t = part ++ post' ∧ IsGap m before part post' := by
  induction part generalizing before t with
  | nil => exact ⟨t, rfl, isGap_nil⟩
  | cons b part ih =>
    obtain ⟨hb, hpart⟩ := List.ne_and_not_mem_of_not_mem_cons hspace
    cases t with
    | nil => simp [piecesFrom] at h
    | cons c rest =>
      by_cases hfound : ∃ a width, m before (c :: rest) = some (a, width + 1)
      · obtain ⟨a, width, hm⟩ := hfound
        rw [piecesFrom_of_eq_some (List.cons_ne_nil c rest) hm] at h
        exact absurd (List.cons.inj h).1 hb
      · push Not at hfound
        rw [piecesFrom_cons_of_ne_some hfound] at h
        obtain ⟨rfl, hrest⟩ := List.cons.inj h
        obtain ⟨post', rfl, hgap⟩ := ih hpart hrest
        exact ⟨post', rfl, isGap_cons.mpr ⟨hfound, hgap⟩⟩

/-- A part of what is left without spaces stands in the text, and no occurrence begins in it. -/
theorem exists_of_map_byteOf_eq {skip : Nat} (hspace : Byte.space ∉ part)
    (h : (piecesFrom m skip before t).map byteOf = pre ++ (part ++ post)) :
    ∃ before' pre' post', t = pre' ++ (part ++ post') ∧ IsGap m before' part post' := by
  induction t generalizing skip before pre with
  | nil =>
    obtain ⟨rfl, hpart⟩ := List.append_eq_nil_iff.mp h.symm
    obtain ⟨rfl, rfl⟩ := List.append_eq_nil_iff.mp hpart
    exact ⟨none, [], [], rfl, isGap_nil⟩
  | cons c rest ih =>
    have hlater : ∀ {skip before pre},
        (piecesFrom m skip before rest).map byteOf = pre ++ (part ++ post) →
        ∃ before' pre' post', c :: rest = pre' ++ (part ++ post') ∧ IsGap m before' part post' := by
      intro skip before pre h
      obtain ⟨before', pre', post', rfl, hgap⟩ := ih h
      exact ⟨before', c :: pre', post', rfl, hgap⟩
    cases skip with
    | succ skip => exact hlater h
    | zero =>
      cases pre with
      | nil =>
        obtain ⟨post', heq, hgap⟩ := exists_of_map_byteOf_eq_append hspace h
        exact ⟨before, [], post', heq, hgap⟩
      | cons d pre =>
        simp only [piecesFrom] at h
        split at h
        next => exact hlater (List.cons.inj h).2
        next => exact hlater (List.cons.inj h).2

theorem exists_of_blankOut_eq (hspace : Byte.space ∉ part)
    (h : blankOut m t = pre ++ (part ++ post)) :
    ∃ before pre' post', t = pre' ++ (part ++ post') ∧ IsGap m before part post' :=
  exists_of_map_byteOf_eq hspace ((blankOut_eq_map m t).symm.trans h)

/-- What begins an occurrence wherever it stands is nowhere in what is left. -/
theorem not_infix_blankOut (hne : part ≠ []) (hspace : Byte.space ∉ part)
    (hfound : ∀ before post, ∃ a width, m before (part ++ post) = some (a, width + 1)) (t : Text) :
    ¬ part <:+: blankOut m t := by
  rintro ⟨pre, post, heq⟩
  obtain ⟨before, pre', post', rfl, hgap⟩ :=
    exists_of_blankOut_eq hspace (heq.symm.trans (List.append_assoc _ _ _))
  obtain ⟨a, width, hm⟩ := hfound (([] : Text).getLast?.or before) post'
  exact hgap [] part rfl hne a width hm

theorem filter_map_byteOf_sublist (m : Matcher α) (skip : Nat) (before : Option UInt8) (t : Text) :
    (((piecesFrom m skip before t).map byteOf).filter (· != Byte.space)).Sublist t := by
  induction t generalizing skip before with
  | nil => simp [piecesFrom]
  | cons b rest ih =>
    cases skip with
    | succ skip => exact (ih skip before).cons b
    | zero =>
      simp only [piecesFrom]
      split
      next => exact (ih _ _).cons b
      next =>
        rw [List.map_cons, List.filter_cons]
        split
        next => exact (ih 0 (some b)).cons_cons b
        next => exact (ih 0 (some b)).cons b

theorem isRemnant_blankOut (m : Matcher α) (t : Text) : IsRemnant t (blankOut m t) where
  sublist := blankOut_eq_map m t ▸ filter_map_byteOf_sublist m 0 none t
  part := by
    rintro part hspace ⟨pre, post, heq⟩
    obtain ⟨-, pre', post', rfl, -⟩ :=
      exists_of_blankOut_eq hspace (heq.symm.trans (List.append_assoc _ _ _))
    exact ⟨pre', post', List.append_assoc _ _ _⟩

theorem isRemnant_removeWords (words : List Text) (t : Text) :
    IsRemnant t (removeWords words t) := by
  induction words generalizing t with
  | nil => exact IsRemnant.refl t
  | cons word words ih => exact (isRemnant_blankOut (standalone word) t).trans (ih _)

/-! ## Collapsed blanks -/

/-- Every blank is a space, with a byte on either side that is none. -/
def IsSingleSpaced (t : Text) : Prop :=
  ∀ pre b post, t = pre ++ b :: post → Byte.isBlank b →
    b = Byte.space ∧ (∃ c ∈ pre.getLast?, Byte.isBlank c = false) ∧
      ∃ c ∈ post.head?, Byte.isBlank c = false

theorem isSingleSpaced_of_forall_not_isBlank (h : ∀ b ∈ t, Byte.isBlank b = false) :
    IsSingleSpaced t := by
  rintro pre b post rfl hb
  simp [h b (by simp)] at hb

/-- A space may be put between two texts that do not have a blank at the place where they meet. -/
theorem IsSingleSpaced.append_cons (ht : IsSingleSpaced t) (hu : IsSingleSpaced u)
    (hlast : ∃ c ∈ t.getLast?, Byte.isBlank c = false)
    (hhead : ∃ c ∈ u.head?, Byte.isBlank c = false) :
    IsSingleSpaced (t ++ Byte.space :: u) := by
  intro pre b post heq hb
  rcases List.append_eq_append_iff.mp heq with ⟨gap, rfl, hgap⟩ | ⟨gap, rfl, hgap⟩
  · cases gap with
    | nil =>
      obtain ⟨rfl, rfl⟩ := List.cons.inj hgap
      exact ⟨rfl, by simpa using hlast, hhead⟩
    | cons c gap =>
      obtain ⟨rfl, rfl⟩ := List.cons.inj hgap
      obtain ⟨hspace, ⟨d, hd, hblank⟩, hpost⟩ := hu gap b post rfl hb
      refine ⟨hspace, ⟨d, ?_, hblank⟩, hpost⟩
      cases gap <;> simp_all
  · cases gap with
    | nil =>
      obtain ⟨rfl, rfl⟩ := List.cons.inj hgap
      exact ⟨rfl, by simpa using hlast, hhead⟩
    | cons c gap =>
      obtain ⟨rfl, rfl⟩ := List.cons.inj hgap
      obtain ⟨hspace, hpre, d, hd, hblank⟩ := ht pre b gap rfl hb
      refine ⟨hspace, hpre, d, ?_, hblank⟩
      cases gap <;> simp_all

theorem IsBlankFree.head? {word : Text} (h : IsBlankFree word) :
    ∃ c ∈ word.head?, Byte.isBlank c = false := by
  obtain ⟨c, rest, rfl⟩ := List.exists_cons_of_ne_nil h.ne_nil
  exact ⟨c, rfl, h.isBlank c List.mem_cons_self⟩

theorem IsBlankFree.getLast? {word : Text} (h : IsBlankFree word) :
    ∃ c ∈ word.getLast?, Byte.isBlank c = false :=
  ⟨word.getLast h.ne_nil, List.getLast?_eq_some_getLast h.ne_nil,
    h.isBlank _ (List.getLast_mem h.ne_nil)⟩

theorem head?_intercalate {w : Text} (hne : w ≠ []) (ws : List Text) :
    ([Byte.space].intercalate (w :: ws)).head? = w.head? := by
  cases ws with
  | nil => simp
  | cons w' ws =>
    obtain ⟨c, rest, rfl⟩ := List.exists_cons_of_ne_nil hne
    rw [List.intercalate_cons_cons]
    rfl

theorem isSingleSpaced_intercalate {ws : List Text} (h : ∀ w ∈ ws, IsBlankFree w) :
    IsSingleSpaced ([Byte.space].intercalate ws) := by
  induction ws with
  | nil => exact isSingleSpaced_of_forall_not_isBlank (by simp)
  | cons w ws ih =>
    obtain ⟨hw, hws⟩ := List.forall_mem_cons.mp h
    have hword : IsSingleSpaced w := isSingleSpaced_of_forall_not_isBlank hw.isBlank
    cases ws with
    | nil => simpa using hword
    | cons w' ws =>
      have hw' : IsBlankFree w' := hws w' List.mem_cons_self
      rw [List.intercalate_cons_cons, List.append_assoc, List.singleton_append]
      exact hword.append_cons (ih hws) hw.getLast? (head?_intercalate hw'.ne_nil ws ▸ hw'.head?)

theorem isSingleSpaced_collapse (t : Text) : IsSingleSpaced (collapse t) :=
  isSingleSpaced_intercalate fun _ => isBlankFree_of_mem_words

theorem IsSingleSpaced.eq_space (h : IsSingleSpaced t) {b : UInt8} (hmem : b ∈ t)
    (hb : Byte.isBlank b) : b = Byte.space := by
  obtain ⟨pre, post, heq⟩ := List.append_of_mem hmem
  exact (h pre b post heq hb).1

/-- A part without blanks stands in one of the words. -/
theorem infix_iff_exists_words (hpart : IsBlankFree part) (t : Text) :
    part <:+: t ↔ ∃ word ∈ words t, part <:+: word := by
  induction t using blank_induction with
  | plain t ht =>
    rw [words_of_forall_not_isBlank ht]
    cases t with
    | nil => simp [hpart.ne_nil]
    | cons b t => simp
  | blank t b u hb iht ihu =>
    have hnotMem : b ∉ part := fun hmem => by simp [hpart.isBlank b hmem] at hb
    rw [words_append_cons hb]
    simp only [List.mem_append, or_and_right, exists_or, ← iht, ← ihu]
    constructor
    · rintro ⟨pre, post, heq⟩
      rcases left_or_right_of_notMem hnotMem (heq.symm.trans (List.append_assoc _ _ _)) with
        ⟨gap, rfl, -⟩ | ⟨gap, -, rfl⟩
      · exact .inl ⟨pre, gap, rfl⟩
      · exact .inr ⟨gap, post, List.append_assoc _ _ _⟩
    · rintro (hstands | hstands)
      · exact hstands.trans (List.prefix_append t (b :: u)).isInfix
      · exact hstands.trans ((List.suffix_cons b u).trans (List.suffix_append t _)).isInfix

theorem infix_collapse_iff (hpart : IsBlankFree part) : part <:+: collapse t ↔ part <:+: t := by
  rw [infix_iff_exists_words hpart, words_collapse, ← infix_iff_exists_words hpart]

theorem isRemnant_collapse (t : Text) : IsRemnant t (collapse t) where
  sublist := by
    have hblank : (collapse t).filter (· != Byte.space) =
        (collapse t).filter fun b => !Byte.isBlank b := by
      refine List.filter_congr fun b hb => ?_
      cases hclass : Byte.isBlank b with
      | true => simp [(isSingleSpaced_collapse t).eq_space hb hclass]
      | false =>
        have hne : b ≠ Byte.space := by
          rintro rfl
          exact absurd hclass (by decide)
        simpa using hne
    rw [hblank, ← flatten_words, words_collapse, flatten_words]
    exact List.filter_sublist
  part part hspace hpart := by
    cases part with
    | nil => exact List.nil_infix
    | cons b rest =>
      refine (infix_collapse_iff ⟨List.cons_ne_nil b rest, fun c hc => ?_⟩).mp hpart
      refine Bool.eq_false_iff.mpr fun hblank => ?_
      rw [(isSingleSpaced_collapse t).eq_space (hpart.subset hc) hblank] at hc
      contradiction

end CatalogEdit.Text
