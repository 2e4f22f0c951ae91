import CatalogEdit.Proofs.Text.Alone
import CatalogEdit.Proofs.Text.CaseScan
import CatalogEdit.Proofs.Text.Trim

/-!
# Phrases with other blanks between their words

Collapsing the blanks of a text goes through it byte by byte, once the blanks at its ends are gone.
So every part of what is left can be found again in the text, and a phrase stands alone after blanks
are collapsed exactly if its words stood there before, with blanks of any kind and number between
them.

## Main definitions

* `Text.squeeze` — a space for every run of blanks.
* `Text.IsSpread` — the words of a phrase, with any blanks between them.

## Main statements

* `Text.StandsAlone.trans` — what stands alone in a phrase that stands alone.
* `Text.collapse_eq_squeeze` — collapsing is squeezing what trimming leaves.
* `Text.exists_of_squeeze_eq` — where a part of a squeezed text comes from.
* `Text.standsAlone_collapse_iff` — where a phrase comes from that stands alone in a text whose
  blanks were collapsed.
-/

namespace CatalogEdit.Text

variable {t u p q word part : Text} {b : UInt8}

/-! ## Words of phrases -/

theorem isWordEdge_getLast?_of_lower_eq (h : lower t = lower u) :
    isWordEdge t.getLast? = isWordEdge u.getLast? := by
  rw [← isWordEdge_lower, ← List.getLast?_map, ← isWordEdge_lower u.getLast?, ← List.getLast?_map]
  exact congrArg (fun t : Text => isWordEdge t.getLast?) h

theorem isWordEdge_head?_of_lower_eq (h : lower t = lower u) :
    isWordEdge t.head? = isWordEdge u.head? := by
  rw [← isWordEdge_lower, ← List.head?_map, ← isWordEdge_lower u.head?, ← List.head?_map]
  exact congrArg (fun t : Text => isWordEdge t.head?) h

/-- What stands alone in a word or phrase stands alone wherever the word or phrase does. -/
theorem StandsAlone.trans (h : StandsAlone part word) (h' : StandsAlone word t) :
    StandsAlone part t := by
  obtain ⟨inner, behind, ⟨found, rfl, hfound⟩, hinner, hbehind⟩ := h
  obtain ⟨pre, post, ⟨whole, rfl, hwhole⟩, hbefore, hafter⟩ := h'
  -- The part is found at the same place, in the case that the letters have there.
  rw [lower_append, lower_append] at hwhole
  obtain ⟨front, back, rfl, hfront, hback⟩ := List.map_eq_append_iff.mp hwhole
  obtain ⟨inner', found', rfl, hinner', hfound'⟩ := List.map_eq_append_iff.mp hfront
  refine ⟨pre ++ inner', back ++ post, ⟨found', by simp, hfound'.trans hfound⟩, ?_, ?_⟩
  · rw [← isWordEdge_getLast?_of_lower_eq hinner'] at hinner
    cases inner' with
    | nil => rwa [List.append_nil]
    | cons b inner' => rwa [List.getLast?_append_of_ne_nil _ (List.cons_ne_nil b inner')]
  · rw [← isWordEdge_head?_of_lower_eq hback] at hbehind
    cases back with
    | nil => exact hafter
    | cons b back => exact hbehind

/-- The words of a phrase stand alone in it. -/
theorem standsAlone_of_mem_words (h : part ∈ words word) : StandsAlone part word :=
  (standsAlone_iff_words (isBlankFree_of_mem_words h) word).mpr
    ⟨part, h, [], [], ⟨part, by simp, rfl⟩, rfl, rfl⟩

/-! ## Squeezing -/

/-- What a byte becomes if it is kept. -/
def squeezeByte (b : UInt8) : UInt8 := if Byte.isBlank b then Byte.space else b

/-- A space for every run of blanks, at the ends of the text as well: a blank before a blank is left
out. -/
def squeeze : Text → Text
  | [] => []
  | b :: rest =>
    if Byte.isBlank b && rest.head?.any Byte.isBlank then squeeze rest
    else squeezeByte b :: squeeze rest

@[simp] theorem isBlank_squeezeByte (b : UInt8) :
    Byte.isBlank (squeezeByte b) = Byte.isBlank b := by
  unfold squeezeByte
  split
  next hb => exact hb.symm
  next => rfl

@[simp] theorem isWord_squeezeByte (b : UInt8) : Byte.isWord (squeezeByte b) = Byte.isWord b := by
  unfold squeezeByte
  split
  next hb => exact (isWord_of_isBlank hb).symm
  next => rfl

theorem squeezeByte_eq_self (hb : Byte.isBlank b = false) : squeezeByte b = b := by
  simp [squeezeByte, hb]

theorem squeeze_cons_left_out (hb : Byte.isBlank b) (ht : t.head?.any Byte.isBlank) :
    squeeze (b :: t) = squeeze t := by
  simp [squeeze, hb, ht]

theorem squeeze_cons_kept (h : Byte.isBlank b = false ∨ t.head?.any Byte.isBlank = false) :
    squeeze (b :: t) = squeezeByte b :: squeeze t := by
  rcases h with h | h <;> simp [squeeze, h]

/-- Whether a byte is left out is decided by it and the next one. -/
theorem left_out_or_kept (b : UInt8) (t : Text) :
    (Byte.isBlank b ∧ t.head?.any Byte.isBlank) ∨
      (Byte.isBlank b = false ∨ t.head?.any Byte.isBlank = false) := by
  cases Byte.isBlank b <;> cases t.head?.any Byte.isBlank <;> simp

theorem head?_squeeze (t : Text) : (squeeze t).head? = t.head?.map squeezeByte := by
  induction t with
  | nil => rfl
  | cons b t ih =>
    rcases left_out_or_kept b t with ⟨hb, ht⟩ | h
    · cases t with
      | nil => simp at ht
      | cons c t =>
        have hc : Byte.isBlank c := by simpa using ht
        rw [squeeze_cons_left_out hb ht, ih]
        simp [squeezeByte, hb, hc]
    · rw [squeeze_cons_kept h]
      rfl

theorem getLast?_squeeze (t : Text) : (squeeze t).getLast? = t.getLast?.map squeezeByte := by
  induction t with
  | nil => rfl
  | cons b t ih =>
    rcases left_out_or_kept b t with ⟨hb, ht⟩ | h
    · cases t with
      | nil => simp at ht
      | cons c t => rw [squeeze_cons_left_out hb ht, ih, List.getLast?_cons_cons]
    · rw [squeeze_cons_kept h, List.getLast?_cons, ih]
      cases t with
      | nil => rfl
      | cons c t => simp [List.getLast?_cons]

theorem isWordEdge_map_squeezeByte (neighbour : Option UInt8) :
    isWordEdge (neighbour.map squeezeByte) = isWordEdge neighbour := by
  cases neighbour <;> simp

theorem isTrimmed_squeeze_iff : IsTrimmed (squeeze t) ↔ IsTrimmed t :=
  isTrimmed_iff_of_map isBlank_squeezeByte (head?_squeeze t) (getLast?_squeeze t)

theorem isTrimmed_lower_iff : IsTrimmed (lower t) ↔ IsTrimmed t :=
  isTrimmed_iff_of_map Byte.ignoresCase_isBlank List.head?_map List.getLast?_map

/-! ## Parts of squeezed texts -/

/-- Texts that do not meet between two blanks are squeezed one by one. -/
theorem squeeze_append (h : (∀ b ∈ p.getLast?, Byte.isBlank b = false) ∨
    ∀ b ∈ q.head?, Byte.isBlank b = false) : squeeze (p ++ q) = squeeze p ++ squeeze q := by
  induction p with
  | nil => rfl
  | cons b p ih =>
    cases p with
    | nil =>
      have hkept : Byte.isBlank b = false ∨ q.head?.any Byte.isBlank = false := by
        refine h.imp (fun h => h b rfl) fun h => ?_
        cases q with
        | nil => rfl
        | cons c q => simpa using h c rfl
      rw [List.singleton_append, squeeze_cons_kept hkept, squeeze_cons_kept (.inr rfl)]
      rfl
    | cons c p =>
      have ih := ih (h.imp_left fun h => by simpa [List.getLast?_cons] using h)
      rcases left_out_or_kept b (c :: p) with ⟨hb, ht⟩ | hkept
      · rw [squeeze_cons_left_out hb ht, ← ih]
        exact squeeze_cons_left_out hb ht
      · have hcons := congrArg (squeezeByte b :: ·) ih
        rw [squeeze_cons_kept hkept]
        exact (squeeze_cons_kept (t := c :: p ++ q) hkept).trans hcons

/-- Every cut of a squeezed text is one of the text. -/
theorem exists_of_squeeze_eq (h : squeeze t = p ++ q) :
    ∃ p' q', t = p' ++ q' ∧ squeeze p' = p ∧ squeeze q' = q := by
  induction t generalizing p with
  | nil =>
    obtain ⟨rfl, rfl⟩ := List.append_eq_nil_iff.mp h.symm
    exact ⟨[], [], rfl, rfl, rfl⟩
  | cons b t ih =>
    rcases left_out_or_kept b t with ⟨hb, ht⟩ | hkept
    · rw [squeeze_cons_left_out hb ht] at h
      obtain ⟨p', q', rfl, rfl, rfl⟩ := ih h
      -- A blank that is left out stays with the blank behind it.
      cases p' with
      | nil => exact ⟨[], b :: q', rfl, rfl, squeeze_cons_left_out hb ht⟩
      | cons c p' => exact ⟨b :: c :: p', q', rfl, squeeze_cons_left_out hb ht, rfl⟩
    · rw [squeeze_cons_kept hkept] at h
      cases p with
      | nil => exact ⟨[], b :: t, rfl, rfl, (squeeze_cons_kept hkept).trans h⟩
      | cons c p =>
        rw [List.cons_append, List.cons.injEq] at h
        obtain ⟨rfl, h⟩ := h
        obtain ⟨p', q', rfl, rfl, rfl⟩ := ih h
        cases p' with
        | nil => exact ⟨[b], q', rfl, squeeze_cons_kept (.inr rfl), rfl⟩
        | cons d p' => exact ⟨b :: d :: p', q', rfl, squeeze_cons_kept hkept, rfl⟩

/-! ## Collapsing is squeezing -/

/-- The blanks at the head of a text are squeezed, but not collapsed, to a space. -/
theorem squeeze_eq_collapse (h : ∀ b ∈ t.getLast?, Byte.isBlank b = false) :
    squeeze t = (if t.head?.any Byte.isBlank then [Byte.space] else []) ++ collapse t := by
  induction t with
  | nil => rfl
  | cons b t ih =>
    have ih := ih fun c hc => h c (by simp [List.getLast?_cons, Option.mem_def.mp hc])
    cases hb : Byte.isBlank b with
    | true =>
      have hcollapse : collapse (b :: t) = collapse t :=
        collapse_eq_iff.mpr (words_cons_of_isBlank hb t)
      rcases left_out_or_kept b t with ⟨-, ht⟩ | hkept
      · rw [squeeze_cons_left_out hb ht, ih, hcollapse]
        simp [ht, hb]
      · have ht : t.head?.any Byte.isBlank = false := by simpa [hb] using hkept
        rw [squeeze_cons_kept hkept, ih, hcollapse]
        simp [ht, hb, squeezeByte]
    | false =>
      rw [squeeze_cons_kept (.inl hb), squeezeByte_eq_self hb, ih]
      cases t with
      | nil =>
        have hnil : collapse [] = [] := rfl
        simp [collapse_singleton hb, hnil, hb]
      | cons c t =>
        cases hc : Byte.isBlank c with
        | true =>
          have hwords : words (b :: c :: t) = words [b] ++ words (c :: t) := by
            rw [words_cons_of_isBlank hc]
            exact words_append_cons hc [b] t
          obtain ⟨d, hd⟩ : ∃ d, (c :: t).getLast? = some d := ⟨_, List.getLast?_cons⟩
          have hnil : collapse (c :: t) ≠ [] :=
            collapse_ne_nil_of_mem (List.mem_of_getLast? hd)
              (h d (by simpa [List.getLast?_cons] using hd))
          rw [collapse_eq_of_words hwords, collapse_singleton hb]
          simp [hnil, hb, hc]
        | false =>
          rw [collapse_cons_of_head? hb ⟨c, rfl, hc⟩]
          simp [hb, hc]

theorem collapse_trim (t : Text) : collapse (trim t) = collapse t := by
  obtain ⟨left, right, heq, hleft, hright⟩ := exists_blanks_trim t
  refine collapse_eq_iff.mpr ?_
  conv_rhs => rw [heq, words_blanks_append hleft]
  cases right with
  | nil => rw [List.append_nil]
  | cons b right =>
    obtain ⟨hb, hright⟩ := List.forall_mem_cons.mp hright
    rw [words_append_cons hb, words_eq_nil_iff.mpr hright, List.append_nil]

/-- Collapsing is squeezing what trimming leaves. -/
theorem collapse_eq_squeeze (t : Text) : collapse t = squeeze (trim t) := by
  have hhead : (trim t).head?.any Byte.isBlank = false := by
    cases hb : (trim t).head? with
    | none => rfl
    | some b => simpa using (isTrimmed_trim t).head b hb
  rw [squeeze_eq_collapse (isTrimmed_trim t).last, hhead, collapse_trim]
  rfl

theorem isTrimmed_collapse (t : Text) : IsTrimmed (collapse t) := by
  rw [collapse_eq_squeeze, isTrimmed_squeeze_iff]
  exact isTrimmed_trim t

/-! ## Blanks around a text -/

section Blanks

variable {blanks : Text} (hblanks : ∀ b ∈ blanks, Byte.isBlank b)
include hblanks

/-- What may stand beside a word may stand beside blanks and a word. -/
theorem isWordEdge_getLast?_blanks_append (t : Text) :
    isWordEdge (blanks ++ t).getLast? = isWordEdge t.getLast? := by
  cases t with
  | nil =>
    cases hb : blanks.getLast? with
    | none => simp [List.getLast?_eq_none_iff.mp hb]
    | some b => simp [hb, isWord_of_isBlank (hblanks b (List.mem_of_getLast? hb))]
  | cons b t => rw [List.getLast?_append_of_ne_nil _ (List.cons_ne_nil b t)]

theorem isWordEdge_head?_append_blanks (t : Text) :
    isWordEdge (t ++ blanks).head? = isWordEdge t.head? := by
  cases t with
  | nil =>
    cases blanks with
    | nil => rfl
    | cons b blanks => simp [isWord_of_isBlank (hblanks b List.mem_cons_self)]
  | cons b t => rfl

end Blanks

theorem isWordEdge_getLast?_trimStart (t : Text) :
    isWordEdge (trimStart t).getLast? = isWordEdge t.getLast? := by
  obtain ⟨blanks, heq, hblanks⟩ := exists_blanks_trimStart t
  conv_rhs => rw [heq, isWordEdge_getLast?_blanks_append hblanks]

theorem isWordEdge_head?_trimEnd (t : Text) :
    isWordEdge (trimEnd t).head? = isWordEdge t.head? := by
  obtain ⟨blanks, heq, hblanks⟩ := exists_blanks_trimEnd t
  conv_rhs => rw [heq, isWordEdge_head?_append_blanks hblanks]

/-! ## Spread phrases -/

/-- The words of `word`, in any case of their letters, with any blanks between them. -/
structure IsSpread (word spread : Text) : Prop where
  isTrimmed : IsTrimmed spread
  lower_collapse : lower (collapse spread) = lower word

/-- A phrase stands alone after blanks are collapsed exactly if its words stood there before, with
any blanks between them. -/
theorem standsAlone_collapse_iff (hne : word ≠ []) (hword : collapse word = word) :
    StandsAlone word (collapse t) ↔ ∃ spread, IsSpread word spread ∧ StandsAlone spread t := by
  constructor
  · rintro ⟨pre, post, ⟨found, heq, hfound⟩, hbefore, hafter⟩
    rw [collapse_eq_squeeze, List.append_assoc] at heq
    obtain ⟨pre', rest, htrim, rfl, hrest⟩ := exists_of_squeeze_eq heq
    obtain ⟨spread, post', rfl, rfl, rfl⟩ := exists_of_squeeze_eq hrest
    have htrimmed : IsTrimmed spread := by
      rw [← isTrimmed_squeeze_iff, ← isTrimmed_lower_iff, hfound, isTrimmed_lower_iff, ← hword]
      exact isTrimmed_collapse word
    obtain ⟨left, right, ht, hleft, hright⟩ := exists_blanks_trim t
    have hcollapse : collapse spread = squeeze spread := by
      rw [collapse_eq_squeeze, trim_eq_self htrimmed]
    refine ⟨spread, ⟨htrimmed, hcollapse ▸ hfound⟩, left ++ pre', post' ++ right,
      ⟨spread, ?_, rfl⟩, ?_, ?_⟩
    · rw [ht, htrim]
      simp only [List.append_assoc]
    · rwa [isWordEdge_getLast?_blanks_append hleft, ← isWordEdge_map_squeezeByte,
        ← getLast?_squeeze]
    · rwa [isWordEdge_head?_append_blanks hright, ← isWordEdge_map_squeezeByte, ← head?_squeeze]
  · rintro ⟨spread, hspread, pre, post, ⟨found, rfl, hfound⟩, hbefore, hafter⟩
    have htrimmed : IsTrimmed found := by
      rw [← isTrimmed_lower_iff, hfound, isTrimmed_lower_iff]
      exact hspread.isTrimmed
    have hsame : lower (squeeze found) = lower word := by
      rw [← hspread.lower_collapse, ← collapse_lower, ← hfound, collapse_lower,
        collapse_eq_squeeze, trim_eq_self htrimmed]
    have hfoundne : found ≠ [] := by
      rintro rfl
      exact hne (by simpa [lower, squeeze, eq_comm] using hsame)
    have hcollapse : collapse (pre ++ found ++ post) =
        squeeze (trimStart pre) ++ squeeze found ++ squeeze (trimEnd post) := by
      rw [collapse_eq_squeeze, List.append_assoc, trim_append_part hfoundne htrimmed,
        squeeze_append (.inr ?_), squeeze_append (.inl htrimmed.last), List.append_assoc]
      cases found with
      | nil => contradiction
      | cons b found => exact htrimmed.head
    refine ⟨_, _, ⟨squeeze found, hcollapse, hsame⟩, ?_, ?_⟩
    · rwa [getLast?_squeeze, isWordEdge_map_squeezeByte, isWordEdge_getLast?_trimStart]
    · rwa [head?_squeeze, isWordEdge_map_squeezeByte, isWordEdge_head?_trimEnd]

end CatalogEdit.Text
