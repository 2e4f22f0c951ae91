import CatalogEdit.Text.Scan
import Mathlib.Data.List.Basic
import Mathlib.Data.List.TakeWhile

/-!
# The course of a scan

A scan reads a gap, in which no occurrence begins, then an occurrence, then it goes on behind it.
Where a recogniser neither reads across a byte nor begins there, the text is cut: what stands before
that byte and what stands behind it are scanned each by itself.

## Main definitions

* `Text.IsGap` — no occurrence begins in a part of a text.
* `Text.StopsAt` — a recogniser neither reads across a byte nor begins there.

## Main statements

* `Text.piecesFrom_append_of_isGap`, `Text.piecesFrom_of_eq_some` — one step of a scan.
* `Text.exists_isGap` — the gap before the first occurrence.
* `Text.StopsAt.blankOut_append_cons` — a text is cut at a byte.
* `Text.takeWhile_append_cons`, `Text.isPrefixOf_append_cons` — what is read before a byte.
-/

namespace CatalogEdit.Text

variable {α : Type} {m : Matcher α} {before : Option UInt8} {gap rest t : Text}

/-- The byte before what is left to read. -/
theorem getLast?_cons_or (b : UInt8) (t : Text) (before : Option UInt8) :
    (b :: t).getLast?.or before = t.getLast?.or (some b) := by
  cases t <;> simp [List.getLast?_cons]

/-! ## Gaps -/

/-- No occurrence begins in `gap`, which `rest` follows. -/
def IsGap (m : Matcher α) (before : Option UInt8) (gap rest : Text) : Prop :=
  ∀ x y, gap = x ++ y → y ≠ [] →
    ∀ a width, m (x.getLast?.or before) (y ++ rest) ≠ some (a, width + 1)

theorem isGap_nil : IsGap m before [] rest := by
  intro x y heq hne
  exact absurd (List.append_eq_nil_iff.mp heq.symm).2 hne

theorem isGap_cons {b : UInt8} :
    IsGap m before (b :: gap) rest ↔
      (∀ a width, m before (b :: (gap ++ rest)) ≠ some (a, width + 1)) ∧
        IsGap m (some b) gap rest := by
  constructor
  · intro h
    refine ⟨h [] (b :: gap) rfl (List.cons_ne_nil b gap), ?_⟩
    rintro x y rfl hne
    rw [← getLast?_cons_or b x before]
    exact h (b :: x) y rfl hne
  · rintro ⟨hhead, hgap⟩ x y heq hne
    cases x with
    | nil =>
      obtain rfl : b :: gap = y := heq
      exact hhead
    | cons c x =>
      obtain ⟨rfl, rfl⟩ := List.cons.inj heq
      rw [getLast?_cons_or]
      exact hgap x y rfl hne

/-! ## The steps of a scan -/

theorem piecesFrom_cons_of_ne_some {b : UInt8}
    (h : ∀ a width, m before (b :: rest) ≠ some (a, width + 1)) :
    piecesFrom m 0 before (b :: rest) = .byte b :: piecesFrom m 0 (some b) rest := by
  rw [piecesFrom]
  split
  next a width hm => exact absurd hm (h a width)
  next => rfl

/-- What belongs to no occurrence is read byte by byte. -/
theorem piecesFrom_append_of_isGap (h : IsGap m before gap rest) :
    piecesFrom m 0 before (gap ++ rest) =
      gap.map .byte ++ piecesFrom m 0 (gap.getLast?.or before) rest := by
  induction gap generalizing before with
  | nil => rfl
  | cons b gap ih =>
    obtain ⟨hhead, hgap⟩ := isGap_cons.mp h
    rw [List.cons_append, piecesFrom_cons_of_ne_some hhead, ih hgap, getLast?_cons_or]
    rfl

/-- The scan goes on behind what was found. -/
theorem piecesFrom_of_eq_some {a : α} {width : Nat} (hne : t ≠ [])
    (h : m before t = some (a, width + 1)) :
    piecesFrom m 0 before t =
      .found a :: piecesFrom m 0 (some Byte.space) (t.drop (width + 1)) := by
  cases t with
  | nil => contradiction
  | cons b rest => rw [piecesFrom_cons, h, List.drop_succ_cons]

/-- A recogniser that does not look back sees the same wherever the scan begins. -/
theorem piecesFrom_before (hm : ∀ before before' x, m before x = m before' x) (skip : Nat)
    (before before' : Option UInt8) (t : Text) :
    piecesFrom m skip before t = piecesFrom m skip before' t := by
  induction t generalizing skip before before' with
  | nil => simp [piecesFrom]
  | cons b rest ih =>
    cases skip with
    | succ skip => exact ih skip before before'
    | zero => simp only [piecesFrom, hm before before']

/-- Either nothing is found, or there is a first occurrence with a gap before it. -/
theorem exists_isGap (m : Matcher α) (before : Option UInt8) (t : Text) :
    IsGap m before t [] ∨ ∃ gap rest a width, t = gap ++ rest ∧ rest ≠ [] ∧
      IsGap m before gap rest ∧ m (gap.getLast?.or before) rest = some (a, width + 1) := by
  induction t generalizing before with
  | nil => exact .inl isGap_nil
  | cons b t ih =>
    by_cases hfound : ∃ a width, m before (b :: t) = some (a, width + 1)
    · obtain ⟨a, width, hm⟩ := hfound
      exact .inr ⟨[], b :: t, a, width, rfl, List.cons_ne_nil b t, isGap_nil, hm⟩
    · push Not at hfound
      rcases ih (some b) with hgap | ⟨gap, rest, a, width, rfl, hne, hgap, hm⟩
      · exact .inl (isGap_cons.mpr ⟨by rwa [List.append_nil], hgap⟩)
      · refine .inr ⟨b :: gap, rest, a, width, rfl, hne, isGap_cons.mpr ⟨hfound, hgap⟩, ?_⟩
        rwa [getLast?_cons_or]

/-! ## Stretches -/

theorem foldr_cut_map_byte (gap run : Text) (runs : List Text) :
    (gap.map (Piece.byte (α := α))).foldr stretches.cut (run :: runs) = (gap ++ run) :: runs := by
  induction gap with
  | nil => rfl
  | cons b gap ih => rw [List.map_cons, List.foldr_cons, ih]; rfl

/-- The stretch before an occurrence is the gap. -/
theorem foldr_cut_found (gap : Text) (a : α) (pieces : List (Piece α)) :
    (gap.map Piece.byte ++ Piece.found a :: pieces).foldr stretches.cut [[]] =
      gap :: pieces.foldr stretches.cut [[]] := by
  have hcut : stretches.cut (Piece.found a) (pieces.foldr stretches.cut [[]]) =
      [] :: pieces.foldr stretches.cut [[]] := by
    cases pieces.foldr stretches.cut [[]] <;> rfl
  rw [List.foldr_append, List.foldr_cons, hcut, foldr_cut_map_byte, List.append_nil]

/-! ## Texts that are cut -/

/-- What a recogniser sees before a byte `c` ends there and does not depend on what follows, and it
sees the same whatever was read before. -/
structure StopsAt (m : Matcher α) (c : UInt8) : Prop where
  append : ∀ before x y, m before (x ++ c :: y) = m before x
  width : ∀ before x a width, m before x = some (a, width) → width ≤ x.length
  before : ∀ before before' x, m before x = m before' x

namespace StopsAt

variable {c : UInt8} (h : StopsAt m c)
include h

theorem piecesFrom_append_cons (skip : Nat) (before : Option UInt8) (x y : Text)
    (hskip : skip ≤ x.length) :
    piecesFrom m skip before (x ++ c :: y) =
      piecesFrom m skip before x ++ .byte c :: piecesFrom m 0 (some c) y := by
  induction x generalizing skip before with
  | nil =>
    obtain rfl : skip = 0 := Nat.le_zero.mp hskip
    refine piecesFrom_cons_of_ne_some fun a width hm => ?_
    have hnil : m before [] = some (a, width + 1) := (h.append before [] y).symm.trans hm
    exact absurd (h.width _ _ _ _ hnil) (by simp)
  | cons b x ih =>
    cases skip with
    | succ skip => exact ih skip before (Nat.le_of_succ_le_succ hskip)
    | zero =>
      have happend := h.append before (b :: x) y
      rw [List.cons_append] at happend ⊢
      simp only [piecesFrom, happend]
      split
      next a width hm =>
        rw [ih width _ (Nat.le_of_succ_le_succ (h.width _ _ _ _ hm)), List.cons_append]
      next => rw [ih 0 _ (Nat.zero_le _), List.cons_append]

theorem blankOut_append_cons (x y : Text) :
    blankOut m (x ++ c :: y) = blankOut m x ++ c :: blankOut m y := by
  rw [blankOut, pieces, h.piecesFrom_append_cons 0 none x y (Nat.zero_le _), List.map_append,
    List.map_cons, piecesFrom_before h.before 0 (some c) none y]
  rfl

end StopsAt

/-! ## Readers that end before a byte -/

section

variable {c : UInt8} {inClass : UInt8 → Bool}

/-- A run of bytes of a class is read up to the first byte that is not of that class. -/
theorem takeWhile_append_of_head? {run rest : Text} (hrun : ∀ b ∈ run, inClass b)
    (hrest : ∀ b ∈ rest.head?, inClass b = false) : (run ++ rest).takeWhile inClass = run := by
  rw [List.takeWhile_append_of_pos hrun]
  cases rest with
  | nil => simp
  | cons b rest => simp [hrest b rfl]

theorem takeWhile_bne_of_notMem {mark : UInt8} {run : Text} (h : mark ∉ run) :
    run.takeWhile (· != mark) = run :=
  List.takeWhile_eq_self_iff.mpr fun _ hb => bne_iff_ne.mpr (ne_of_mem_of_not_mem hb h)

/-- A text is read up to the first mark. -/
theorem takeWhile_bne_append_cons {mark : UInt8} {run : Text} (h : mark ∉ run) (rest : Text) :
    (run ++ mark :: rest).takeWhile (· != mark) = run :=
  takeWhile_append_of_head? (fun _ hb => bne_iff_ne.mpr (ne_of_mem_of_not_mem hb h)) (by simp)

theorem takeWhile_append_cons (hc : inClass c = false) (x y : Text) :
    (x ++ c :: y).takeWhile inClass = x.takeWhile inClass := by
  induction x with
  | nil => simp [hc]
  | cons b x ih => simp only [List.cons_append, List.takeWhile_cons, ih]

theorem trimStart_append_cons (hc : Byte.isBlank c = false) (x y : Text) :
    trimStart (x ++ c :: y) = trimStart x ++ c :: y := by
  induction x with
  | nil => simp [trimStart, hc]
  | cons b x ih =>
    simp only [trimStart, List.cons_append, List.dropWhile_cons] at ih ⊢
    rw [ih]
    split <;> rfl

theorem head?_append_cons_beq {mark : UInt8} (hc : c ≠ mark) (x y : Text) :
    ((x ++ c :: y).head? == some mark) = (x.head? == some mark) := by
  cases x <;> simp [hc]

/-- What does not hold a byte begins a text exactly if it begins what stands before that byte. -/
theorem isPrefixOf_append_cons {symbol : Text} (hc : c ∉ symbol) (x y : Text) :
    symbol.isPrefixOf (x ++ c :: y) = symbol.isPrefixOf x := by
  induction symbol generalizing x with
  | nil => rfl
  | cons b symbol ih =>
    obtain ⟨hb, hsymbol⟩ := List.ne_and_not_mem_of_not_mem_cons hc
    cases x with
    | nil => simp [List.isPrefixOf, Ne.symm hb]
    | cons a x => simp only [List.cons_append, List.isPrefixOf, ih hsymbol]

end

/-! ## The ends of what is left -/

theorem piecesFrom_eq_nil_iff : piecesFrom m 0 before t = [] ↔ t = [] := by
  cases t with
  | nil => simp [piecesFrom]
  | cons b rest =>
    simp only [piecesFrom, List.cons_ne_nil, iff_false]
    split <;> exact List.cons_ne_nil _ _

@[simp] theorem blankOut_eq_nil_iff : blankOut m t = [] ↔ t = [] := by
  rw [blankOut, List.map_eq_nil_iff, pieces, piecesFrom_eq_nil_iff]

theorem eq_space_or_mem_head?_blankOut (m : Matcher α) (t : Text) :
    ∀ b ∈ (blankOut m t).head?, b = Byte.space ∨ b ∈ t.head? := by
  intro b hb
  cases t with
  | nil => simp [blankOut, pieces, piecesFrom] at hb
  | cons c rest =>
    simp only [blankOut, pieces, piecesFrom] at hb
    split at hb
    next => exact .inl (by simpa using hb.symm)
    next => exact .inr (by simpa using hb)

theorem mem_getLast?_cons {β : Type} {a b : β} {l : List β} :
    b ∈ (a :: l).getLast? ↔ b ∈ l.getLast? ∨ l = [] ∧ b = a := by
  cases l with
  | nil => simp [eq_comm]
  | cons c l => simp

/-- The last part of a scan is an occurrence or the last byte of the text. -/
theorem eq_found_or_byte_of_mem_getLast? (m : Matcher α) (skip : Nat) (before : Option UInt8)
    (t : Text) : ∀ piece ∈ (piecesFrom m skip before t).getLast?,
      (∃ a, piece = .found a) ∨ ∃ b ∈ t.getLast?, piece = .byte b := by
  intro piece hpiece
  induction t generalizing skip before with
  | nil => simp [piecesFrom] at hpiece
  | cons b rest ih =>
    -- The last byte of the rest, if there is one, is the last byte of the whole.
    have hlater : ∀ skip before, piece ∈ (piecesFrom m skip before rest).getLast? →
        (∃ a, piece = .found a) ∨ ∃ c ∈ (b :: rest).getLast?, piece = .byte c := by
      intro skip before hlast
      rcases ih skip before hlast with hfound | ⟨c, hc, heq⟩
      · exact .inl hfound
      · exact .inr ⟨c, mem_getLast?_cons.mpr (.inl hc), heq⟩
    cases skip with
    | succ skip => exact hlater skip before hpiece
    | zero =>
      simp only [piecesFrom] at hpiece
      split at hpiece
      next a width _ =>
        rcases mem_getLast?_cons.mp hpiece with hlast | ⟨-, rfl⟩
        · exact hlater width _ hlast
        · exact .inl ⟨a, rfl⟩
      next =>
        rcases mem_getLast?_cons.mp hpiece with hlast | ⟨hnil, rfl⟩
        · exact hlater 0 _ hlast
        · obtain rfl : rest = [] := piecesFrom_eq_nil_iff.mp hnil
          exact .inr ⟨b, rfl, rfl⟩

theorem eq_space_or_mem_getLast?_blankOut (m : Matcher α) (t : Text) :
    ∀ b ∈ (blankOut m t).getLast?, b = Byte.space ∨ b ∈ t.getLast? := by
  intro b hb
  rw [blankOut, List.getLast?_map, Option.mem_def, Option.map_eq_some_iff] at hb
  obtain ⟨piece, hpiece, rfl⟩ := hb
  rcases eq_found_or_byte_of_mem_getLast? m 0 none t piece hpiece with ⟨a, rfl⟩ | ⟨c, hc, rfl⟩
  · exact .inl rfl
  · exact .inr hc

end CatalogEdit.Text
