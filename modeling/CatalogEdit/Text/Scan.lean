import CatalogEdit.Text.Basic

/-!
# Scanning a text from left to right

Everything the library finds in a text is found by one reading from left to right. A
`Matcher` looks at the head of what is left, knowing the byte before it, and answers what it
sees there and how many bytes that takes. A scan cuts the text into what was found and the
bytes in between; occurrences do not overlap, and the leftmost one wins.

## Main definitions

* `Matcher`, `Piece` — how occurrences are recognised, and what a scan is made of.
* `Text.pieces` — the scan of a text.
* `Text.occurrences`, `Text.blankOut`, `Text.stretches` — what was found, the text with a
  space for every occurrence, and the runs of bytes between the occurrences.
* `Text.search` — the leftmost answer of a recogniser that needs no width.
-/

namespace CatalogEdit

/-- A recogniser: from the byte before and the rest of the text, the value seen at the head of
the rest and its width. An occurrence has at least one byte; the width zero is no occurrence. -/
abbrev Matcher (α : Type) := Option UInt8 → Text → Option (α × Nat)

/-- A part of a scanned text: a byte that belongs to no occurrence, or an occurrence. -/
inductive Piece (α : Type) where
  | byte (b : UInt8)
  | found (a : α)
deriving DecidableEq, Repr

namespace Text

variable {α : Type}

/-! ## The scan -/

/-- Scan `t`, of which the first `skip` bytes belong to an occurrence already found. The byte
after an occurrence has a space before it. -/
def piecesFrom (m : Matcher α) : Nat → Option UInt8 → Text → List (Piece α)
  | _, _, [] => []
  | skip + 1, before, _ :: rest => piecesFrom m skip before rest
  | 0, before, b :: rest =>
    match m before (b :: rest) with
    | some (a, width + 1) => .found a :: piecesFrom m width (some Byte.space) rest
    | _ => .byte b :: piecesFrom m 0 (some b) rest

def pieces (m : Matcher α) (t : Text) : List (Piece α) := piecesFrom m 0 none t

theorem piecesFrom_skip (m : Matcher α) (skip : Nat) (before : Option UInt8) (t : Text) :
    piecesFrom m skip before t = piecesFrom m 0 before (t.drop skip) := by
  induction t generalizing skip with
  | nil => cases skip <;> simp [piecesFrom]
  | cons b rest ih => cases skip <;> simp [piecesFrom, ih]

theorem piecesFrom_cons (m : Matcher α) (before : Option UInt8) (b : UInt8) (rest : Text) :
    piecesFrom m 0 before (b :: rest) =
      match m before (b :: rest) with
      | some (a, width + 1) =>
        .found a :: piecesFrom m 0 (some Byte.space) (rest.drop width)
      | _ => .byte b :: piecesFrom m 0 (some b) rest := by
  rw [piecesFrom]
  split <;> simp [piecesFrom_skip m _ _ rest]

/-! ## Views of a scan -/

/-- What was found, from left to right. -/
def occurrences (m : Matcher α) (t : Text) : List α :=
  (pieces m t).filterMap fun
    | .byte _ => none
    | .found a => some a

/-- The text with one space for every occurrence. -/
def blankOut (m : Matcher α) (t : Text) : Text :=
  (pieces m t).map fun
    | .byte b => b
    | .found _ => Byte.space

/-- The runs of bytes before, between and after the occurrences: one more than there are
occurrences. -/
def stretches (m : Matcher α) (t : Text) : List Text :=
  (pieces m t).foldr cut [[]]
where
  cut : Piece α → List Text → List Text
    | .byte b, run :: runs => (b :: run) :: runs
    | .byte b, [] => [[b]]
    | .found _, runs => [] :: runs

/-! ## Leftmost answers -/

/-- The answer at the leftmost place where `p` has one; `before` is the byte before `t`. -/
def searchFrom (p : Option UInt8 → Text → Option α) : Option UInt8 → Text → Option α
  | _, [] => none
  | before, b :: rest =>
    match p before (b :: rest) with
    | some a => some a
    | none => searchFrom p (some b) rest

def search (p : Option UInt8 → Text → Option α) (t : Text) : Option α := searchFrom p none t

end Text

end CatalogEdit
