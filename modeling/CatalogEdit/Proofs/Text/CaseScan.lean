import CatalogEdit.Proofs.Text.Case
import CatalogEdit.Text.Quoted
import CatalogEdit.Text.Word

/-!
# Scanning a folded text

A recogniser that sees the same in a text and in the folded text finds the same all over the text:
the scan of a folded text is the folded scan.

## Main definitions

* `Text.FoldsCase` — a recogniser that sees the same after folding.
* `Text.foldPiece` — what becomes of a part of a scan.

## Main statements

* `Text.FoldsCase.search`, `Text.FoldsCase.pieces` — searches and scans of a folded text.
* `Text.hasWordStart_lower`, `Text.removeWord_lower` — keywords in a folded text.
* `Text.foldsCase_quotedLiteral` — literals in a folded text.
-/

namespace CatalogEdit.Text

open Byte (IgnoresCase)

/-! ## Scans -/

variable {α : Type} {f : α → α}

/-- After folding, the recogniser `p` sees what it saw before, folded by `f`. -/
def FoldsCase (f : α → α) (p : Option UInt8 → Text → Option α) : Prop :=
  ∀ before t, p (before.map Byte.lower) (lower t) = (p before t).map f

/-- The part of the folded text that stands in the place of a part. -/
def foldPiece (f : α → α) : Piece α → Piece α
  | .byte b => .byte (Byte.lower b)
  | .found a => .found (f a)

theorem foldsCase_id {p : Option UInt8 → Text → Option α}
    (h : ∀ before t, p (before.map Byte.lower) (lower t) = p before t) : FoldsCase id p := by
  intro before t
  rw [h, Option.map_id, id]

namespace FoldsCase

theorem searchFrom {p : Option UInt8 → Text → Option α} (h : FoldsCase f p)
    (before : Option UInt8) (t : Text) :
    Text.searchFrom p (before.map Byte.lower) (lower t) = (Text.searchFrom p before t).map f := by
  induction t generalizing before with
  | nil => rfl
  | cons b rest ih =>
    have hhead := h before (b :: rest)
    rw [lower_cons] at hhead ⊢
    cases hp : p before (b :: rest) with
    | none =>
      rw [hp, Option.map_none] at hhead
      simp only [Text.searchFrom, hhead, hp]
      exact ih (some b)
    | some a =>
      rw [hp, Option.map_some] at hhead
      simp only [Text.searchFrom, hhead, hp, Option.map_some]

theorem search {p : Option UInt8 → Text → Option α} (h : FoldsCase f p) (t : Text) :
    Text.search p (lower t) = (Text.search p t).map f :=
  h.searchFrom none t

/-- What does not depend on case is found unchanged. -/
theorem search_id {p : Option UInt8 → Text → Option α}
    (h : ∀ before t, p (before.map Byte.lower) (lower t) = p before t) (t : Text) :
    Text.search p (lower t) = Text.search p t := by
  rw [(foldsCase_id h).search, Option.map_id, id]

variable {m : Matcher α} (h : FoldsCase (Prod.map f id) m)
include h

theorem piecesFrom (skip : Nat) (before : Option UInt8) (t : Text) :
    Text.piecesFrom m skip (before.map Byte.lower) (lower t) =
      (Text.piecesFrom m skip before t).map (foldPiece f) := by
  induction t generalizing skip before with
  | nil => cases skip <;> rfl
  | cons b rest ih =>
    cases skip with
    | succ skip => exact ih skip before
    | zero =>
      have hhead := h before (b :: rest)
      rw [lower_cons] at hhead ⊢
      -- A width of zero is no occurrence, and then the next byte is looked at as well.
      match hm : m before (b :: rest) with
      | none =>
        rw [hm] at hhead
        simp only [Text.piecesFrom, hhead, hm]
        exact congrArg (_ :: ·) (ih 0 (some b))
      | some (a, 0) =>
        rw [hm] at hhead
        simp only [Text.piecesFrom, hhead, hm]
        exact congrArg (_ :: ·) (ih 0 (some b))
      | some (a, width + 1) =>
        rw [hm] at hhead
        simp only [Text.piecesFrom, hhead, hm]
        exact congrArg (_ :: ·) (ih width (some Byte.space))

theorem pieces (t : Text) : Text.pieces m (lower t) = (Text.pieces m t).map (foldPiece f) :=
  h.piecesFrom 0 none t

theorem occurrences (t : Text) :
    Text.occurrences m (lower t) = (Text.occurrences m t).map f := by
  rw [Text.occurrences, h.pieces, Text.occurrences, List.filterMap_map, List.map_filterMap]
  congr 1
  funext piece
  cases piece <;> rfl

theorem blankOut (t : Text) : Text.blankOut m (lower t) = lower (Text.blankOut m t) := by
  rw [Text.blankOut, h.pieces, Text.blankOut, lower, List.map_map, List.map_map]
  congr 1
  funext piece
  cases piece <;> rfl

theorem stretches (t : Text) :
    Text.stretches m (lower t) = (Text.stretches m t).map lower := by
  rw [Text.stretches, h.pieces, Text.stretches]
  induction Text.pieces m t with
  | nil => rfl
  | cons piece rest ih =>
    rw [List.map_cons, List.foldr_cons, List.foldr_cons, ih]
    cases piece with
    | byte b => cases List.foldr stretches.cut [[]] rest <;> rfl
    | found a => rfl

end FoldsCase

/-! ## Words -/

@[simp] theorem isWordEdge_lower (neighbour : Option UInt8) :
    isWordEdge (neighbour.map Byte.lower) = isWordEdge neighbour :=
  all_lower_neighbour Byte.ignoresCase_isWord neighbour

@[simp] theorem hasWordStart_lower (keyword t : Text) :
    hasWordStart keyword (lower t) = hasWordStart keyword t := by
  rw [hasWordStart, FoldsCase.search_id, hasWordStart]
  intro before rest
  simp only [isWordEdge_lower, startsWith_lower]

@[simp] theorem occurs_lower (keyword t : Text) : occurs keyword (lower t) = occurs keyword t := by
  rw [occurs, FoldsCase.search_id, occurs]
  intro before rest
  simp only [startsWith_lower]

@[simp] theorem hasAnyWordStart_lower (keywords : List Text) (t : Text) :
    hasAnyWordStart keywords (lower t) = hasAnyWordStart keywords t := by
  simp only [hasAnyWordStart, hasWordStart_lower]

@[simp] theorem anyOccurs_lower (keywords : List Text) (t : Text) :
    anyOccurs keywords (lower t) = anyOccurs keywords t := by
  simp only [anyOccurs, occurs_lower]

theorem foldsCase_standalone (word : Text) : FoldsCase (Prod.map id id) (standalone word) := by
  rw [Prod.map_id]
  refine foldsCase_id fun before t => ?_
  simp only [standalone, isWordEdge_lower, startsWith_lower, drop_lower, head?_lower]

theorem standalone_lower_left (word : Text) : standalone (lower word) = standalone word := by
  funext before t
  simp only [standalone, startsWith_lower_left, length_lower]

theorem removeWord_lower (word t : Text) : removeWord word (lower t) = lower (removeWord word t) :=
  (foldsCase_standalone word).blankOut t

theorem removeWord_lower_left (word t : Text) : removeWord (lower word) t = removeWord word t := by
  rw [removeWord, standalone_lower_left, removeWord]

theorem removeWords_lower (words : List Text) (t : Text) :
    removeWords words (lower t) = lower (removeWords words t) := by
  induction words generalizing t with
  | nil => rfl
  | cons word words ih =>
    simp only [removeWords, List.foldl_cons, removeWord_lower] at ih ⊢
    exact ih _

/-! ## Quoted literals -/

theorem isLetter_of_isQuoteMark {b : UInt8} : isQuoteMark b → Byte.isLetter b = false := by
  grind [isQuoteMark]

theorem ignoresCase_isQuoteMark : IgnoresCase isQuoteMark := fun b => by grind [isQuoteMark]

theorem quotedBody?_lower {mark : UInt8} (h : Byte.isLetter mark = false) (t : Text) :
    quotedBody? mark (lower t) = (quotedBody? mark t).map lower := by
  have hmark : IgnoresCase (· != mark) := fun b =>
    Bool.eq_iff_iff.mpr (by simp [Byte.lower_eq_iff h])
  simp only [quotedBody?, takeWhile_lower hmark, isEmpty_lower, length_lower, drop_lower]
  split <;> rfl

theorem foldsCase_quotedLiteral : FoldsCase (Prod.map lower id) quotedLiteral := by
  intro before t
  cases t with
  | nil => rfl
  | cons mark rest =>
    rw [lower_cons]
    simp only [quotedLiteral, ignoresCase_isQuoteMark mark]
    split
    next hmark =>
      have hletter := isLetter_of_isQuoteMark hmark
      rw [Byte.lower_of_isLetter_eq_false hletter, quotedBody?_lower hletter, Option.map_map,
        Option.map_map]
      congr 1
      funext body
      simp
    next => rfl

end CatalogEdit.Text
