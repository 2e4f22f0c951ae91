import CatalogEdit.Number.Numeral
import CatalogEdit.Proofs.Text.Case
import CatalogEdit.Proofs.Text.Scan

/-!
# Numerals as they are written

A numeral that is read stands at the head of the text, and nothing of it is left: neither a digit
nor a fraction follows it. So it ends before a letter, and what follows the letter does not matter.

## Main definitions

* `Numeral.IsWellFormed` — numerals that can be written.
* `Numeral.EndsBefore` — a numeral is not cut off before what follows it.

## Main statements

* `Numeral.read?_eq_some_iff` — a numeral is read where it is written, and in full.
* `Numeral.read?_append_cons` — a numeral ends before a letter.
-/

namespace CatalogEdit.Numeral

/-- There are digits before the point, and nothing but digits on either side of it. -/
structure IsWellFormed (n : Numeral) : Prop where
  whole_ne_nil : n.whole ≠ []
  isDigit_whole : ∀ b ∈ n.whole, Byte.isDigit b
  isDigit_fraction : ∀ b ∈ n.fraction, Byte.isDigit b

/-- No digit follows the numeral, and no fraction if it has none. -/
structure EndsBefore (n : Numeral) (rest : Text) : Prop where
  digit : ∀ b ∈ rest.head?, Byte.isDigit b = false
  fraction : n.fraction = [] → ∀ b rest', rest = Byte.dot :: b :: rest' → Byte.isDigit b = false

/-! ## The parts of a numeral -/

variable {b : UInt8} {t rest : Text} {n : Numeral}

theorem dropSign_cons_of_ne (h : b ≠ Byte.minus) : dropSign (b :: rest) = b :: rest :=
  dropSign.eq_2 _ (by simpa using h)

theorem readFraction_dot (rest : Text) :
    readFraction (Byte.dot :: rest) = rest.takeWhile Byte.isDigit := rfl

theorem readFraction_cons_of_ne (h : b ≠ Byte.dot) : readFraction (b :: rest) = [] :=
  readFraction.eq_2 _ (by simpa using h)

theorem sign_append_dropSign (t : Text) :
    (if t.head? == some Byte.minus then [Byte.minus] else []) ++ dropSign t = t := by
  cases t with
  | nil => rfl
  | cons b rest =>
    by_cases hb : b = Byte.minus
    · subst hb
      rfl
    · simp [dropSign_cons_of_ne hb, hb]

theorem isDigit_takeWhile (t : Text) : ∀ b ∈ t.takeWhile Byte.isDigit, Byte.isDigit b :=
  List.all_eq_true.mp List.all_takeWhile

theorem isDigit_head?_dropWhile (t : Text) :
    ∀ b ∈ (t.dropWhile Byte.isDigit).head?, Byte.isDigit b = false := by
  intro b hb
  have h := List.head?_dropWhile_not Byte.isDigit t
  rw [Option.mem_def.mp hb] at h
  exact h

theorem readFraction_eq_nil_iff :
    readFraction t = [] ↔ ∀ b rest, t = Byte.dot :: b :: rest → Byte.isDigit b = false := by
  match t with
  | [] => simp [readFraction]
  | [b] =>
    by_cases hb : b = Byte.dot
    · simp [hb, readFraction_dot]
    · simp [readFraction_cons_of_ne hb]
  | b :: c :: rest =>
    by_cases hb : b = Byte.dot
    · subst hb
      cases hc : Byte.isDigit c <;> simp [readFraction_dot, hc]
    · simp [readFraction_cons_of_ne hb, hb]

/-- A fraction is read with all its digits. -/
theorem exists_append_readFraction (h : readFraction t ≠ []) :
    ∃ rest, t = Byte.dot :: (readFraction t ++ rest) ∧ (∀ b ∈ readFraction t, Byte.isDigit b) ∧
      ∀ b ∈ rest.head?, Byte.isDigit b = false := by
  cases t with
  | nil => exact absurd rfl h
  | cons b rest =>
    have hb : b = Byte.dot := by
      by_contra hne
      exact h (readFraction_cons_of_ne hne)
    subst hb
    refine ⟨rest.dropWhile Byte.isDigit, ?_, isDigit_takeWhile rest, isDigit_head?_dropWhile rest⟩
    rw [readFraction_dot, List.takeWhile_append_dropWhile]

/-! ## Reading in full -/

/-- The fraction ends the numeral, if what stands before it are digits. -/
theorem exists_endsBefore (ht : ∀ b ∈ t.head?, Byte.isDigit b = false) (negative : Bool)
    (whole : Text) :
    ∃ rest, t = (if (readFraction t).isEmpty then [] else Byte.dot :: readFraction t) ++ rest ∧
      (∀ b ∈ readFraction t, Byte.isDigit b) ∧
      EndsBefore ⟨negative, whole, readFraction t⟩ rest := by
  by_cases hnil : readFraction t = []
  · exact ⟨t, by simp [hnil], by simp [hnil], ht, fun _ => readFraction_eq_nil_iff.mp hnil⟩
  · obtain ⟨rest, heq, hdigit, hrest⟩ := exists_append_readFraction hnil
    exact ⟨rest, by simpa [hnil] using heq, hdigit, hrest, fun h => absurd h hnil⟩

theorem exists_append_of_read? (h : read? t = some n) :
    ∃ rest, t = n.text ++ rest ∧ n.IsWellFormed ∧ n.EndsBefore rest := by
  simp only [read?] at h
  split at h
  next => contradiction
  next hwhole =>
    obtain rfl := Option.some.inj h
    have hcut : (dropSign t).takeWhile Byte.isDigit ++
        (dropSign t).drop ((dropSign t).takeWhile Byte.isDigit).length = dropSign t :=
      List.prefix_iff_eq_append.mp (List.takeWhile_prefix _)
    have hdrop : (dropSign t).drop ((dropSign t).takeWhile Byte.isDigit).length =
        (dropSign t).dropWhile Byte.isDigit :=
      List.append_cancel_left (hcut.trans List.takeWhile_append_dropWhile.symm)
    rw [hdrop] at hcut ⊢
    obtain ⟨rest, hrest, hdigit, hends⟩ := exists_endsBefore
      (isDigit_head?_dropWhile (dropSign t)) (t.head? == some Byte.minus)
      ((dropSign t).takeWhile Byte.isDigit)
    refine ⟨rest, ?_, ⟨by simpa using hwhole, isDigit_takeWhile _, hdigit⟩, hends⟩
    simp only [text, List.append_assoc]
    rw [← hrest, hcut, sign_append_dropSign]

theorem read?_text_append (hn : n.IsWellFormed) (hends : n.EndsBefore rest) :
    read? (n.text ++ rest) = some n := by
  obtain ⟨negative, whole, fraction⟩ := n
  obtain ⟨hne, hwhole, hfraction⟩ := hn
  obtain ⟨hdigit, hnoFraction⟩ := hends
  obtain ⟨behind, hbehind⟩ : ∃ behind, behind =
    (if fraction.isEmpty then [] else Byte.dot :: fraction) ++ rest := ⟨_, rfl⟩
  have htext : text ⟨negative, whole, fraction⟩ ++ rest =
      (if negative then [Byte.minus] else []) ++ (whole ++ behind) := by
    simp [text, hbehind]
  have hdot : Byte.isDigit Byte.dot = false := by decide
  have hhead : ∀ b ∈ behind.head?, Byte.isDigit b = false := by
    by_cases hnil : fraction = []
    · simpa [hbehind, hnil] using hdigit
    · simp [hbehind, hnil, hdot]
  have hread : readFraction behind = fraction := by
    by_cases hnil : fraction = []
    · simpa [hbehind, hnil] using readFraction_eq_nil_iff.mpr (hnoFraction hnil)
    · simpa [hbehind, hnil, readFraction_dot] using
        Text.takeWhile_append_of_head? hfraction hdigit
  obtain ⟨d, whole, rfl⟩ := List.exists_cons_of_ne_nil hne
  have hd : d ≠ Byte.minus := by
    rintro rfl
    exact absurd (hwhole _ List.mem_cons_self) (by decide)
  have hsign : dropSign ((if negative then [Byte.minus] else []) ++ (d :: whole ++ behind)) =
      d :: whole ++ behind := by
    cases negative with
    | true => rfl
    | false => exact dropSign_cons_of_ne hd
  have hminus : (((if negative then [Byte.minus] else []) ++ (d :: whole ++ behind)).head? ==
      some Byte.minus) = negative := by
    cases negative with
    | true => rfl
    | false => simp [hd]
  rw [htext]
  simp only [read?, hsign, hminus, Text.takeWhile_append_of_head? hwhole hhead, List.drop_left,
    hread]
  rfl

/-- A numeral that is read stands at the head of the text, and nothing of it is left. -/
theorem read?_eq_some_iff :
    read? t = some n ↔ ∃ rest, t = n.text ++ rest ∧ n.IsWellFormed ∧ n.EndsBefore rest := by
  constructor
  · exact exists_append_of_read?
  · rintro ⟨rest, rfl, hn, hends⟩
    exact read?_text_append hn hends

theorem read?_nil : read? [] = none := rfl

theorem width_le_of_read? (h : read? t = some n) : n.width ≤ t.length := by
  obtain ⟨rest, rfl, -, -⟩ := exists_append_of_read? h
  simp [width]

/-! ## The first bytes of a numeral -/

/-- A numeral begins with a digit, or with a minus and a digit. -/
theorem IsWellFormed.exists_text_eq (h : n.IsWellFormed) :
    ∃ d digits, Byte.isDigit d ∧
      n.text = (if n.negative then [Byte.minus] else []) ++ d :: digits := by
  obtain ⟨d, digits, hdigits⟩ := List.exists_cons_of_ne_nil h.whole_ne_nil
  refine ⟨d, digits ++ if n.fraction.isEmpty then [] else Byte.dot :: n.fraction,
    h.isDigit_whole d (by simp [hdigits]), ?_⟩
  rw [text, hdigits, List.append_assoc, List.cons_append]

/-- Where a digit stands, a numeral is read. -/
theorem isSome_read?_cons (h : Byte.isDigit b) (rest : Text) : (read? (b :: rest)).isSome := by
  have hb : b ≠ Byte.minus := by
    rintro rfl
    exact absurd h (by decide)
  simp [read?, dropSign_cons_of_ne hb, h]

/-- A byte that is neither a digit nor a point ends every numeral. -/
theorem endsBefore_of_head? (n : Numeral)
    (h : ∀ b ∈ rest.head?, Byte.isDigit b = false ∧ b ≠ Byte.dot) : n.EndsBefore rest where
  digit b hb := (h b hb).1
  fraction := by
    rintro - b rest' rfl
    exact absurd rfl (h Byte.dot rfl).2

/-! ## Before a letter -/

variable {c : UInt8} (hc : Byte.isLetter c)
include hc

theorem dropSign_append_cons (x y : Text) : dropSign (x ++ c :: y) = dropSign x ++ c :: y := by
  cases x with
  | nil => exact dropSign_cons_of_ne (Byte.ne_of_isLetter hc rfl)
  | cons b x =>
    by_cases hb : b = Byte.minus
    · subst hb
      rfl
    · rw [List.cons_append, dropSign_cons_of_ne hb, dropSign_cons_of_ne hb, List.cons_append]

theorem readFraction_append_cons (x y : Text) : readFraction (x ++ c :: y) = readFraction x := by
  cases x with
  | nil => exact readFraction_cons_of_ne (Byte.ne_of_isLetter hc rfl)
  | cons b x =>
    by_cases hb : b = Byte.dot
    · subst hb
      exact Text.takeWhile_append_cons (Byte.isDigit_of_isLetter hc) x y
    · rw [List.cons_append, readFraction_cons_of_ne hb, readFraction_cons_of_ne hb]

/-- A numeral ends before a letter. -/
theorem read?_append_cons (x y : Text) : read? (x ++ c :: y) = read? x := by
  have hwhole := (List.takeWhile_sublist Byte.isDigit (l := dropSign x)).length_le
  have hminus : c ≠ Byte.minus := Byte.ne_of_isLetter hc rfl
  simp only [read?, dropSign_append_cons hc,
    Text.takeWhile_append_cons (Byte.isDigit_of_isLetter hc),
    List.drop_append_of_le_length hwhole, readFraction_append_cons hc,
    Text.head?_append_cons_beq hminus]

end CatalogEdit.Numeral
