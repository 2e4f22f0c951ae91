import CatalogEdit.Proofs.Mention.Money
import CatalogEdit.Proofs.Text.Remnant
import CatalogEdit.Residue
import Mathlib.Data.List.Infix

/-!
# The residue is clean

Digits, currency symbols and punctuation are taken out of a request one after the other, then words,
then blanks. None of these steps brings back what an earlier one took out, whatever the words of the
command are, so the residue is free of all of it.

## Main definitions

* `Residue.IsClean` — no signs, and single spaces between the words.

## Main statements

* `Residue.exists_numberToken_eq`, `Residue.exists_currencySymbol_eq` — a digit or a symbol is taken
  out wherever it stands.
* `Residue.isRemnant_ofText` — the residue is what is left of the request, and of what each step
  leaves.
* `Residue.residue_is_clean` — the residue, and the selection that is made from it.
-/

namespace CatalogEdit

namespace Residue

open Text (IsRemnant)

/-- There is no digit, no currency symbol and no punctuation mark, and single spaces stand between
the words. -/
structure IsClean (t : Text) : Prop where
  digit : ∀ b ∈ t, Byte.isDigit b = false
  symbol : ∀ symbol ∈ Lexicon.currencySymbols, ¬ symbol <:+: t
  mark : ∀ b ∈ t, b ∉ utf8 ",.;:!?&\"%"
  isSingleSpaced : Text.IsSingleSpaced t

/-! ## What begins an occurrence -/

/-- Where a digit stands, a numeral is taken out. -/
theorem exists_numberToken_eq {b : UInt8} (hb : Byte.isDigit b) (before : Option UInt8)
    (rest : Text) : ∃ a width, numberToken before (b :: rest) = some (a, width + 1) := by
  obtain ⟨n, hread⟩ := Option.isSome_iff_exists.mp (Numeral.isSome_read?_cons hb rest)
  obtain ⟨behind, heq, hn, -⟩ := Numeral.read?_eq_some_iff.mp hread
  obtain ⟨d, digits, -, htext⟩ := hn.exists_text_eq
  have hbehind : (b :: rest).drop n.width = behind := by
    rw [heq, Numeral.width, List.drop_left]
  have htrim : (Text.trimStart behind).length ≤ behind.length :=
    (List.dropWhile_suffix Byte.isBlank).length_le
  have hlength : behind.length < (b :: rest).length := by
    rw [heq, htext, List.length_append, List.length_append, List.length_cons]
    omega
  have hpos : (b :: rest).length - (Text.trimStart behind).length ≠ 0 := by omega
  obtain ⟨width, hwidth⟩ := Nat.exists_eq_succ_of_ne_zero hpos
  refine ⟨(), width + if (Text.trimStart behind).head? == some Byte.percent then 1 else 0, ?_⟩
  simp only [numberToken, hread, Option.map_some, hbehind, hwidth]
  congr 2
  omega

theorem space_notMem_of_mem_currencySymbols :
    ∀ symbol ∈ Lexicon.currencySymbols, Byte.space ∉ symbol := by
  decide +kernel

/-- Where a symbol stands, it is taken out. -/
theorem exists_currencySymbol_eq {symbol : Text} (hsymbol : symbol ∈ Lexicon.currencySymbols)
    (before : Option UInt8) (rest : Text) :
    ∃ a width, currencySymbol before (symbol ++ rest) = some (a, width + 1) := by
  have hfind : Mention.currencySymbolAt? (symbol ++ rest) = some symbol :=
    Mention.currencySymbolAt?_eq_some_iff.mpr ⟨hsymbol, List.prefix_append _ _⟩
  obtain ⟨width, hwidth⟩ := Nat.exists_eq_succ_of_ne_zero
    (mt List.length_eq_zero_iff.mp (Mention.ne_nil_of_mem_currencySymbols symbol hsymbol))
  exact ⟨(), width, by simp only [currencySymbol, hfind, Option.map_some, hwidth]⟩

/-- A punctuation mark as an occurrence. -/
def punctuationMark : Matcher Unit := fun _ t =>
  if t.head?.any isPunctuation then some ((), 1) else none

theorem blankPunctuation_eq_blankOut (t : Text) :
    blankPunctuation t = Text.blankOut punctuationMark t := by
  suffices h : ∀ before, blankPunctuation t =
      (Text.piecesFrom punctuationMark 0 before t).map Text.byteOf by
    rw [Text.blankOut_eq_map]
    exact h none
  induction t with
  | nil => exact fun _ => rfl
  | cons b rest ih =>
    intro before
    have hcons : blankPunctuation (b :: rest) =
        (if isPunctuation b then Byte.space else b) :: blankPunctuation rest := rfl
    cases hb : isPunctuation b with
    | true =>
      have hmark : punctuationMark before (b :: rest) = some ((), 1) := by
        simp [punctuationMark, hb]
      rw [hcons, hb, Text.piecesFrom_of_eq_some (List.cons_ne_nil b rest) hmark, List.map_cons,
        List.drop_succ_cons, List.drop_zero, ← ih]
      rfl
    | false =>
      have hmark : punctuationMark before (b :: rest) = none := by
        simp [punctuationMark, hb]
      rw [hcons, hb, Text.piecesFrom_cons_of_ne_some (by simp [hmark]), List.map_cons, ← ih]
      rfl

theorem isPunctuation_of_mem : ∀ b ∈ utf8 ",.;:!?&\"%", isPunctuation b := by
  decide +kernel

/-! ## The residue -/

section

variable (t : Text) (commandWords : List Text)

theorem isRemnant_ofText_of_strip : IsRemnant (strip t) (ofText t commandWords) :=
  (Text.isRemnant_removeWords _ _).trans (Text.isRemnant_collapse _)

theorem isRemnant_ofText_of_symbols :
    IsRemnant
      (Text.blankOut currencySymbol
        (Text.blankOut numberToken (Text.blankOut Text.quotedLiteral t)))
      (ofText t commandWords) := by
  refine IsRemnant.trans ?_ (isRemnant_ofText_of_strip t commandWords)
  rw [strip, blankPunctuation_eq_blankOut]
  exact Text.isRemnant_blankOut _ _

theorem isRemnant_ofText_of_numbers :
    IsRemnant (Text.blankOut numberToken (Text.blankOut Text.quotedLiteral t))
      (ofText t commandWords) :=
  (Text.isRemnant_blankOut _ _).trans (isRemnant_ofText_of_symbols t commandWords)

theorem isRemnant_ofText : IsRemnant t (ofText t commandWords) :=
  ((Text.isRemnant_blankOut _ _).trans (Text.isRemnant_blankOut _ _)).trans
    (isRemnant_ofText_of_numbers t commandWords)

theorem isClean_ofText : IsClean (ofText t commandWords) where
  digit b hb := by
    refine Bool.eq_false_iff.mpr fun hdigit => ?_
    have hspace : b ≠ Byte.space := by
      rintro rfl
      exact absurd hdigit (by decide)
    have hnumbers := (isRemnant_ofText_of_numbers t commandWords).mem hspace hb
    exact Text.not_infix_blankOut (List.cons_ne_nil b []) (by simpa using Ne.symm hspace)
      (exists_numberToken_eq hdigit) _ ((List.singleton_infix_iff b _).mpr hnumbers)
  symbol symbol hsymbol hstands :=
    Text.not_infix_blankOut (Mention.ne_nil_of_mem_currencySymbols symbol hsymbol)
      (space_notMem_of_mem_currencySymbols symbol hsymbol) (exists_currencySymbol_eq hsymbol) _
      ((isRemnant_ofText_of_symbols t commandWords).part symbol
        (space_notMem_of_mem_currencySymbols symbol hsymbol) hstands)
  mark b hb hmark := by
    have hspace : b ≠ Byte.space := by
      rintro rfl
      exact absurd hmark (by decide +kernel)
    have hstrip := (isRemnant_ofText_of_strip t commandWords).mem hspace hb
    rw [strip, blankPunctuation, List.mem_map] at hstrip
    obtain ⟨c, -, rfl⟩ := hstrip
    split at hmark
    next => exact absurd hmark (by decide +kernel)
    next hc => exact hc (isPunctuation_of_mem c hmark)
  isSingleSpaced := Text.isSingleSpaced_collapse _

/-- The residue is clean, and apart from its spaces it is made of bytes of the request in their
order. So a selection is either empty or it asks for a title with at least three bytes of that
kind. -/
theorem residue_is_clean :
    IsClean (ofText t commandWords) ∧
    ((ofText t commandWords).filter (· != Byte.space)).Sublist t ∧
    (Selection.ofText t commandWords = {} ∨
      ∃ title, Selection.ofText t commandWords = { titleContains := some title } ∧
        3 ≤ title.length ∧ IsClean title ∧ (title.filter (· != Byte.space)).Sublist t) := by
  have hclean := isClean_ofText t commandWords
  have hsublist := (isRemnant_ofText t commandWords).sublist
  refine ⟨hclean, hsublist, ?_⟩
  by_cases hlength : Selection.minTitleLength ≤ (ofText t commandWords).length
  · exact .inr ⟨_, if_pos hlength, hlength, hclean, hsublist⟩
  · exact .inl (if_neg hlength)

end

end Residue

end CatalogEdit
