import CatalogEdit.Mention.Amount
import CatalogEdit.Proofs.Number.Numeral
import CatalogEdit.Proofs.Text.Search
import CatalogEdit.Proofs.Text.Trim

/-!
# Numbers are read in full

The first number of a request begins at its first digit, or at a minus right before that. A
percentage begins at the leftmost place from which a numeral, blanks and a percent sign follow one
another. In either case the numeral is never cut: no digit and no sign before it is lost, and no
digit behind it.

## Main definitions

* `Mention.IsFirstNumeral` — the numeral at the first digit of a text.
* `Mention.IsPercentage` — a numeral with a percent sign behind it.

## Main statements

* `Mention.isFirstNumeral_iff` — the leftmost numeral is the one at the first digit.
* `Mention.percentAt?_eq_some_iff` — what stands before a percent sign is read in full.
* `Mention.numbers_are_read_in_full` — the value of the first number and of the first percentage.
-/

namespace CatalogEdit.Mention

open Text (IsAnswer)

variable {t pre post : Text} {n : Numeral}

/-- The numeral `n` stands between `pre` and `post`. There is no digit before it, a minus right
before its digits belongs to it, and neither a digit nor a fraction is left behind it. -/
structure IsFirstNumeral (t pre : Text) (n : Numeral) (post : Text) : Prop where
  eq : t = pre ++ (n.text ++ post)
  isWellFormed : n.IsWellFormed
  endsBefore : n.EndsBefore post
  digit : ∀ b ∈ pre, Byte.isDigit b = false
  minus : n.negative = false → pre.getLast? ≠ some Byte.minus

/-- The numeral `n` stands between `pre` and `post`, and `post` begins with a percent sign that may
have blanks before it. -/
structure IsPercentage (t pre : Text) (n : Numeral) (post : Text) : Prop where
  eq : t = pre ++ (n.text ++ post)
  isWellFormed : n.IsWellFormed
  percent : ∃ blanks rest, post = blanks ++ Byte.percent :: rest ∧ ∀ b ∈ blanks, Byte.isBlank b

/-! ## The first numeral -/

/-- The numeral with a minus before it. -/
theorem text_of_negative (h : n.negative = false) :
    Numeral.text { n with negative := true } = Byte.minus :: n.text := by
  simp [Numeral.text, h]

/-- The numeral with one more digit before it. -/
theorem text_of_digit (h : n.negative = false) (d : UInt8) :
    Numeral.text { n with whole := d :: n.whole } = d :: n.text := by
  simp [Numeral.text, h]

theorem isAnswer_read?_iff :
    IsAnswer Numeral.read? t pre n ↔
      ∃ post, t = pre ++ (n.text ++ post) ∧ n.IsWellFormed ∧ n.EndsBefore post := by
  simp only [IsAnswer, Numeral.read?_eq_some_iff]
  grind

theorem isDigit_minus : Byte.isDigit Byte.minus = false := by decide

/-- No numeral begins before the first one. -/
theorem IsFirstNumeral.length_le (h : IsFirstNumeral t pre n post) {x : Text} {m : Numeral}
    (hx : IsAnswer Numeral.read? t x m) : pre.length ≤ x.length := by
  obtain ⟨rest, hrest, hm, -⟩ := isAnswer_read?_iff.mp hx
  by_contra hlt
  obtain ⟨y, rfl⟩ : x <+: pre :=
    List.prefix_of_prefix_length_le ⟨_, hrest.symm⟩ ⟨_, h.eq.symm⟩ (by omega)
  have heq : x ++ (y ++ (n.text ++ post)) = x ++ (m.text ++ rest) := by
    rw [← hrest, h.eq, List.append_assoc]
  replace heq := List.append_cancel_left heq
  obtain ⟨d, digits, hd, htext⟩ := hm.exists_text_eq
  obtain ⟨d', digits', hd', htext'⟩ := h.isWellFormed.exists_text_eq
  have hdigit : d ∉ y := by
    intro hy
    simp [h.digit d (by simp [hy])] at hd
  -- What stands between the two places has no digit, so it is the minus of the earlier numeral.
  cases y with
  | nil => simp at hlt
  | cons c y =>
    have hminus : m.negative = true ∧ c = Byte.minus ∧ y = [] := by
      cases hm : m.negative <;> cases y <;> simp_all
    obtain ⟨hnegative, rfl, rfl⟩ := hminus
    have hpositive : n.negative = false := by
      cases hn : n.negative with
      | false => rfl
      | true =>
        obtain ⟨rfl, -⟩ : Byte.minus = d ∧ _ := by simpa [htext, htext', hnegative, hn] using heq
        simp [isDigit_minus] at hd
    exact h.minus hpositive (by simp)

/-- The leftmost numeral is the one at the first digit. -/
theorem isFirstNumeral_iff :
    (IsAnswer Numeral.read? t pre n ∧
        ∀ x m, IsAnswer Numeral.read? t x m → pre.length ≤ x.length) ↔
      ∃ post, IsFirstNumeral t pre n post := by
  constructor
  · rintro ⟨hanswer, hfirst⟩
    obtain ⟨post, heq, hn, hends⟩ := isAnswer_read?_iff.mp hanswer
    refine ⟨post, heq, hn, hends, ?_, ?_⟩
    · intro b hb
      by_contra hdigit
      obtain ⟨x, y, rfl⟩ := List.append_of_mem hb
      obtain ⟨m, hm⟩ := Option.isSome_iff_exists.mp
        (Numeral.isSome_read?_cons (by simpa using hdigit) (y ++ (n.text ++ post)))
      have hle := hfirst x m ⟨_, by simpa using heq, hm⟩
      rw [List.length_append, List.length_cons] at hle
      omega
    · intro hpositive hlast
      obtain ⟨x, rfl⟩ := List.getLast?_eq_some_iff.mp hlast
      have hle := hfirst x { n with negative := true } <| isAnswer_read?_iff.mpr
        ⟨post, by simpa [text_of_negative hpositive] using heq,
          ⟨hn.whole_ne_nil, hn.isDigit_whole, hn.isDigit_fraction⟩, ⟨hends.digit, hends.fraction⟩⟩
      rw [List.length_append, List.length_singleton] at hle
      omega
  · rintro ⟨post, h⟩
    exact ⟨isAnswer_read?_iff.mpr ⟨post, h.eq, h.isWellFormed, h.endsBefore⟩,
      fun x m hx => h.length_le hx⟩

theorem search_read?_eq_some_iff :
    Text.search (fun _ rest => Numeral.read? rest) t = some n ↔
      ∃ pre post, IsFirstNumeral t pre n post := by
  rw [Text.search_eq_some_iff Numeral.read?_nil]
  simp only [isFirstNumeral_iff]

theorem search_read?_eq_none_iff :
    Text.search (fun _ rest => Numeral.read? rest) t = none ↔ ∀ b ∈ t, Byte.isDigit b = false := by
  rw [Text.search_eq_none_iff Numeral.read?_nil]
  constructor
  · intro h b hb
    by_contra hdigit
    obtain ⟨x, y, rfl⟩ := List.append_of_mem hb
    obtain ⟨m, hm⟩ := Option.isSome_iff_exists.mp
      (Numeral.isSome_read?_cons (by simpa using hdigit) y)
    exact h x m ⟨_, rfl, hm⟩
  · intro h pre n hanswer
    obtain ⟨post, rfl, hn, -⟩ := isAnswer_read?_iff.mp hanswer
    obtain ⟨d, digits, hd, htext⟩ := hn.exists_text_eq
    simp [h d (by simp [htext])] at hd

/-! ## Percentages -/

theorem isDigit_of_isBlank {b : UInt8} :
    Byte.isBlank b → Byte.isDigit b = false ∧ b ≠ Byte.dot := by
  grind

/-- Blanks and a percent sign begin with a blank or with the percent sign. -/
theorem IsPercentage.head? (h : IsPercentage t pre n post) :
    ∃ b ∈ post.head?, Byte.isBlank b ∨ b = Byte.percent := by
  obtain ⟨blanks, rest, rfl, hblanks⟩ := h.percent
  cases blanks with
  | nil => exact ⟨Byte.percent, rfl, .inr rfl⟩
  | cons b blanks => exact ⟨b, rfl, .inl (hblanks b List.mem_cons_self)⟩

/-- A numeral with a percent sign behind it is not cut off. -/
theorem IsPercentage.endsBefore (h : IsPercentage t pre n post) : n.EndsBefore post := by
  obtain ⟨b, hb, hclass⟩ := h.head?
  refine n.endsBefore_of_head? fun c hc => ?_
  obtain rfl : c = b := Option.mem_unique hc hb
  rcases hclass with hblank | rfl
  · exact isDigit_of_isBlank hblank
  · exact ⟨by decide, by decide⟩

/-- What stands before a percent sign is read in full. -/
theorem percentAt?_eq_some_iff : percentAt? t = some n ↔ ∃ post, IsPercentage t [] n post := by
  rw [percentAt?, Option.filter_eq_some_iff, beq_iff_eq]
  constructor
  · rintro ⟨hread, hpercent⟩
    obtain ⟨post, rfl, hn, -⟩ := Numeral.read?_eq_some_iff.mp hread
    rw [Numeral.width, List.drop_left] at hpercent
    obtain ⟨blanks, hpost, hblanks⟩ := Text.exists_blanks_trimStart post
    obtain ⟨rest, hrest⟩ := List.head?_eq_some_iff.mp hpercent
    exact ⟨post, rfl, hn, blanks, rest, hrest ▸ hpost, hblanks⟩
  · rintro ⟨post, h⟩
    obtain ⟨blanks, rest, hpost, hblanks⟩ := h.percent
    have htrim : Text.trimStart post = Byte.percent :: rest := by
      rw [hpost, Text.trimStart_append hblanks]
      exact Text.trimStart_eq_self (by simp; decide)
    refine ⟨Numeral.read?_eq_some_iff.mpr ⟨post, h.eq, h.isWellFormed, h.endsBefore⟩, ?_⟩
    rw [h.eq, List.nil_append, Numeral.width, List.drop_left, htrim, List.head?_cons]

theorem isAnswer_percentAt?_iff :
    IsAnswer percentAt? t pre n ↔ ∃ post, IsPercentage t pre n post := by
  simp only [IsAnswer, percentAt?_eq_some_iff]
  constructor
  · rintro ⟨rest, rfl, post, h⟩
    exact ⟨post, by rw [h.eq]; rfl, h.isWellFormed, h.percent⟩
  · rintro ⟨post, h⟩
    exact ⟨n.text ++ post, h.eq, post, rfl, h.isWellFormed, h.percent⟩

theorem percentAt?_nil : percentAt? [] = none := rfl

/-- The leftmost percentage has neither a digit nor a minus before its first digit. -/
theorem IsPercentage.getLast?_of_first (h : IsPercentage t pre n post)
    (hfirst : ∀ x m rest, IsPercentage t x m rest → pre.length ≤ x.length)
    (hpositive : n.negative = false) :
    ∀ b ∈ pre.getLast?, Byte.isDigit b = false ∧ b ≠ Byte.minus := by
  intro b hb
  obtain ⟨x, rfl⟩ := List.getLast?_eq_some_iff.mp hb
  have hlonger : ∀ m : Numeral, m.text = b :: n.text → ¬ m.IsWellFormed := by
    intro m htext hm
    have hle := hfirst x m post ⟨by simpa [htext] using h.eq, hm, h.percent⟩
    rw [List.length_append, List.length_singleton] at hle
    omega
  obtain ⟨hne, hwhole, hfraction⟩ := h.isWellFormed
  constructor
  · by_contra hdigit
    exact hlonger _ (text_of_digit hpositive b)
      ⟨by simp, List.forall_mem_cons.mpr ⟨by simpa using hdigit, hwhole⟩, hfraction⟩
  · rintro rfl
    exact hlonger _ (text_of_negative hpositive) ⟨hne, hwhole, hfraction⟩

/-! ## The numbers of a request -/

/-- A request without a digit has no number. In any other one the number is the numeral at the
first digit, with the minus right before it if there is one, and with all its digits. The percentage
is the leftmost numeral that blanks and a percent sign follow; a numeral that begins with a digit
has neither a digit nor a minus before it, and a blank or the percent sign comes next. A numeral
whose value is out of range is no number. -/
theorem numbers_are_read_in_full (t : Text) :
    ((∀ b ∈ t, Byte.isDigit b = false) → plainNumber? t = none) ∧
    ((∃ b ∈ t, Byte.isDigit b) →
      (∃ pre n post, IsFirstNumeral t pre n post) ∧
        ∀ pre n post, IsFirstNumeral t pre n post → plainNumber? t = n.value?) ∧
    ((¬ ∃ pre n post, IsPercentage t pre n post) → percentage? t = none) ∧
    ∀ pre n post, IsPercentage t pre n post →
      (∀ x m rest, IsPercentage t x m rest → pre.length ≤ x.length) →
        percentage? t = n.value? ∧
        (n.negative = false → ∀ b ∈ pre.getLast?, Byte.isDigit b = false ∧ b ≠ Byte.minus) ∧
        ∃ b ∈ post.head?, Byte.isBlank b ∨ b = Byte.percent := by
  refine ⟨fun h => ?_, fun ⟨b, hb, hdigit⟩ => ⟨?_, fun pre n post h => ?_⟩, fun h => ?_,
    fun pre n post h hfirst => ⟨?_, h.getLast?_of_first hfirst, h.head?⟩⟩
  · rw [plainNumber?, search_read?_eq_none_iff.mpr h, Option.bind_none]
  · cases hsearch : Text.search (fun _ rest => Numeral.read? rest) t with
    | none => simp [search_read?_eq_none_iff.mp hsearch b hb] at hdigit
    | some n =>
      obtain ⟨pre, post, h⟩ := search_read?_eq_some_iff.mp hsearch
      exact ⟨pre, n, post, h⟩
  · rw [plainNumber?, search_read?_eq_some_iff.mpr ⟨pre, post, h⟩, Option.bind_some]
  · have hnone : Text.search (fun _ rest => percentAt? rest) t = none := by
      rw [Text.search_eq_none_iff percentAt?_nil]
      intro pre n hanswer
      exact h ⟨pre, n, isAnswer_percentAt?_iff.mp hanswer⟩
    rw [percentage?, hnone, Option.bind_none]
  · have hsome : Text.search (fun _ rest => percentAt? rest) t = some n := by
      refine (Text.search_eq_some_iff percentAt?_nil).mpr
        ⟨pre, isAnswer_percentAt?_iff.mpr ⟨post, h⟩, fun x m hx => ?_⟩
      obtain ⟨rest, hrest⟩ := isAnswer_percentAt?_iff.mp hx
      exact hfirst x m rest hrest
    rw [percentage?, hsome, Option.bind_some]

theorem numbers_are_read_in_full_dotted :
    IsFirstNumeral (utf8 "raise v2.5.6 by 7-3 %") (utf8 "raise v") ⟨false, utf8 "2", utf8 "5"⟩
      (utf8 ".6 by 7-3 %") ∧
    IsPercentage (utf8 "raise v2.5.6 by 7-3 %") (utf8 "raise v2.5.6 by 7") ⟨true, utf8 "3", []⟩
      (utf8 " %") ∧
    plainNumber? (utf8 "raise v2.5.6 by 7-3 %") = Numeral.value? ⟨false, utf8 "2", utf8 "5"⟩ ∧
    percentage? (utf8 "raise v2.5.6 by 7-3 %") = Numeral.value? ⟨true, utf8 "3", []⟩ := by
  have hnumeral : IsFirstNumeral (utf8 "raise v2.5.6 by 7-3 %") (utf8 "raise v")
      ⟨false, utf8 "2", utf8 "5"⟩ (utf8 ".6 by 7-3 %") :=
    { eq := by decide +kernel
      isWellFormed := ⟨by decide +kernel, by decide +kernel, by decide +kernel⟩
      endsBefore := ⟨by decide +kernel, fun h => absurd h (by decide +kernel)⟩
      digit := by decide +kernel
      minus := by decide +kernel }
  have hpercentage : IsPercentage (utf8 "raise v2.5.6 by 7-3 %") (utf8 "raise v2.5.6 by 7")
      ⟨true, utf8 "3", []⟩ (utf8 " %") :=
    { eq := by decide +kernel
      isWellFormed := ⟨by decide +kernel, by decide +kernel, by decide +kernel⟩
      percent := ⟨utf8 " ", [], by decide +kernel, by decide +kernel⟩ }
  have hearlier : ∀ place < (utf8 "raise v2.5.6 by 7").length,
      percentAt? ((utf8 "raise v2.5.6 by 7-3 %").drop place) = none := by
    decide +kernel
  obtain ⟨-, hnumber, -, hpercent⟩ := numbers_are_read_in_full (utf8 "raise v2.5.6 by 7-3 %")
  exact ⟨hnumeral, hpercentage,
    (hnumber ⟨0x32, by decide +kernel, by decide +kernel⟩).2 _ _ _ hnumeral,
    (hpercent _ _ _ hpercentage fun x m rest hx =>
      IsAnswer.le_length hearlier (isAnswer_percentAt?_iff.mpr ⟨rest, hx⟩)).1⟩

end CatalogEdit.Mention
