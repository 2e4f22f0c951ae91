import CatalogEdit.Proofs.Text.Character
import CatalogEdit.Proofs.Text.Remnant

/-!
# Scans that leave the characters whole

A scan reads bytes. If nothing it finds begins or ends in the middle of a character, then what it
leaves of a well-formed text is well formed, and so is everything between the occurrences.

## Main definitions

* `Matcher.KeepsCharacters` — a recogniser begins and ends at characters.
* `Text.IsWhole` — a scan is made of characters and occurrences.

## Main statements

* `Text.isWhole_pieces` — the scan of a well-formed text is.
* `Matcher.KeepsCharacters.blankOut`, `Matcher.KeepsCharacters.occurrences`,
  `Matcher.KeepsCharacters.stretches` — what that means for the views of a scan.
-/

namespace CatalogEdit

open Utf8 (isWellFormed IsCharacter)

variable {α : Type} {m : Matcher α} {isValue : α → Prop} {t : Text}

/-- No occurrence begins in the middle of a character, and at the head of a well-formed text every
occurrence has a value of this kind and is followed by a well-formed text. -/
structure Matcher.KeepsCharacters (m : Matcher α) (isValue : α → Prop) : Prop where
  first : ∀ before b rest a width, m before (b :: rest) = some (a, width + 1) →
    Byte.isContinuation b = false
  behind : ∀ before t a width, isWellFormed t → m before t = some (a, width + 1) →
    isValue a ∧ isWellFormed (t.drop (width + 1))

/-- A recogniser that takes well-formed parts out of a text keeps the characters. -/
theorem Matcher.keepsCharacters_of_isWellFormed
    (h : ∀ before t a width, m before t = some (a, width + 1) →
      ∃ found rest, t = found ++ rest ∧ found.length = width + 1 ∧ isWellFormed found) :
    m.KeepsCharacters fun _ => True where
  first before b rest a width hfound := by
    obtain ⟨found, rest', heq, hlength, hformed⟩ := h before (b :: rest) a width hfound
    obtain ⟨c, found, rfl⟩ := List.exists_cons_of_length_eq_add_one hlength
    obtain ⟨rfl, -⟩ := List.cons.inj heq
    exact Utf8.isEdge_of_isWellFormed hformed b rfl
  behind before t a width ht hfound := by
    obtain ⟨found, rest, rfl, hlength, hformed⟩ := h before t a width hfound
    rw [Utf8.isWellFormed_append hformed] at ht
    rw [← hlength, List.drop_left]
    exact ⟨trivial, ht⟩

namespace Text

/-- The bytes that belong to no occurrence are those of characters. -/
inductive IsWhole (isValue : α → Prop) : List (Piece α) → Prop where
  | nil : IsWhole isValue []
  | character {c : Text} {pieces : List (Piece α)} (hc : IsCharacter c)
      (h : IsWhole isValue pieces) : IsWhole isValue (c.map .byte ++ pieces)
  | found {a : α} {pieces : List (Piece α)} (ha : isValue a) (h : IsWhole isValue pieces) :
      IsWhole isValue (.found a :: pieces)

/-! ## The scan -/

/-- Nothing is found inside a character. -/
theorem isGap_of_isContinuation (hm : m.KeepsCharacters isValue) {gap : Text}
    (hgap : ∀ b ∈ gap, Byte.isContinuation b) (before : Option UInt8) (rest : Text) :
    IsGap m before gap rest := by
  intro x y heq hne a width hfound
  obtain ⟨b, y, rfl⟩ := List.exists_cons_of_ne_nil hne
  have hfirst := hm.first _ b (y ++ rest) a width hfound
  rw [hgap b (by simp [heq])] at hfirst
  contradiction

theorem isWhole_piecesFrom (hm : m.KeepsCharacters isValue) (ht : isWellFormed t)
    (before : Option UInt8) : IsWhole isValue (piecesFrom m 0 before t) := by
  induction hlength : t.length using Nat.strongRecOn generalizing t before with
  | ind n ih =>
    by_cases hne : t = []
    · subst hne
      exact .nil
    by_cases hfound : ∃ a width, m before t = some (a, width + 1)
    · obtain ⟨a, width, hfound⟩ := hfound
      obtain ⟨ha, hbehind⟩ := hm.behind before t a width ht hfound
      have hpos := List.length_pos_iff.mpr hne
      rw [piecesFrom_of_eq_some hne hfound]
      exact .found ha (ih _ (by rw [List.length_drop]; omega) hbehind _ rfl)
    · push Not at hfound
      obtain ⟨c, rest, rfl, hc, hrest⟩ := Utf8.exists_isCharacter ht hne
      have hpos := List.length_pos_iff.mpr hc.ne_nil
      have hgap : IsGap m before c rest := by
        obtain ⟨first, tail, rfl, -, htail⟩ := hc.exists_cons
        exact isGap_cons.mpr ⟨hfound, isGap_of_isContinuation hm htail _ rest⟩
      rw [List.length_append] at hlength
      rw [piecesFrom_append_of_isGap hgap]
      exact .character hc (ih rest.length (by omega) hrest _ rfl)

theorem isWhole_pieces (hm : m.KeepsCharacters isValue) (ht : isWellFormed t) :
    IsWhole isValue (pieces m t) :=
  isWhole_piecesFrom hm ht none

/-! ## Its views -/

variable {pieces : List (Piece α)}

theorem IsWhole.map_byteOf (h : IsWhole isValue pieces) : isWellFormed (pieces.map byteOf) := by
  induction h with
  | nil => rfl
  | @character c pieces hc _ ih =>
    have hbytes : (c.map Piece.byte).map (byteOf : Piece α → UInt8) = c := by
      rw [List.map_map]
      exact List.map_id c
    rwa [List.map_append, hbytes, Utf8.isWellFormed_append_of_isCharacter hc]
  | @found a pieces _ _ ih =>
    have hspace : byteOf (Piece.found a) < 0x80 := by
      rw [byteOf]
      decide
    rwa [List.map_cons, Utf8.isWellFormed_cons hspace]

theorem IsWhole.isValue_of_mem (h : IsWhole isValue pieces) {a : α}
    (ha : Piece.found a ∈ pieces) : isValue a := by
  induction h with
  | nil => contradiction
  | character _ _ ih => exact ih (by simpa using ha)
  | found hvalue _ ih =>
    rcases List.mem_cons.mp ha with heq | ha
    · obtain rfl := Piece.found.inj heq
      exact hvalue
    · exact ih ha

theorem foldr_cut_ne_nil (pieces : List (Piece α)) : pieces.foldr stretches.cut [[]] ≠ [] := by
  induction pieces with
  | nil => exact List.cons_ne_nil _ _
  | cons piece pieces ih =>
    obtain ⟨run, runs, hruns⟩ := List.exists_cons_of_ne_nil ih
    rw [List.foldr_cons, hruns]
    cases piece <;> exact List.cons_ne_nil _ _

theorem IsWhole.foldr_cut (h : IsWhole isValue pieces) :
    ∀ run ∈ pieces.foldr stretches.cut [[]], isWellFormed run := by
  induction h with
  | nil => simp
  | @character c pieces hc _ ih =>
    obtain ⟨run, runs, hruns⟩ := List.exists_cons_of_ne_nil (foldr_cut_ne_nil pieces)
    rw [hruns, List.forall_mem_cons] at ih
    rw [List.foldr_append, hruns, foldr_cut_map_byte, List.forall_mem_cons,
      Utf8.isWellFormed_append_of_isCharacter hc]
    exact ih
  | @found a pieces _ _ ih =>
    have hcut := foldr_cut_found [] a pieces
    rw [List.map_nil, List.nil_append] at hcut
    rw [hcut, List.forall_mem_cons]
    exact ⟨rfl, ih⟩

end Text

namespace Matcher.KeepsCharacters

variable (hm : m.KeepsCharacters isValue) (ht : isWellFormed t)
include hm ht

theorem blankOut : isWellFormed (Text.blankOut m t) := by
  rw [Text.blankOut_eq_map]
  exact (Text.isWhole_pieces hm ht).map_byteOf

theorem occurrences : ∀ a ∈ Text.occurrences m t, isValue a := by
  intro a ha
  obtain ⟨piece, hpiece, heq⟩ := List.mem_filterMap.mp ha
  cases piece with
  | byte b => contradiction
  | found a' =>
    obtain rfl := Option.some.inj heq
    exact (Text.isWhole_pieces hm ht).isValue_of_mem hpiece

theorem stretches : ∀ run ∈ Text.stretches m t, isWellFormed run :=
  (Text.isWhole_pieces hm ht).foldr_cut

end Matcher.KeepsCharacters

end CatalogEdit
