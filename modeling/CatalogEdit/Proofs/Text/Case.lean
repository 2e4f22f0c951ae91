import CatalogEdit.Text.Basic

/-!
# Folding the case of a text

Classes of bytes hold a letter in both cases or in none, so a text is cut, trimmed and compared with
a keyword in the same way before and after the case of its letters is folded.

## Main definitions

* `Byte.IgnoresCase` — a class of bytes that does not tell the cases of a letter apart.

## Main statements

* `Text.takeWhile_lower`, `Text.splitOnP_lower` — the parts of a folded text.
* `Text.trim_lower`, `Text.label?_lower`, `Text.collapse_lower` — blanks of a folded text.
* `Text.startsWith_lower`, `Text.startsWith_lower_left` — keywords at its head.
-/

namespace CatalogEdit

/-! ## Bytes -/

namespace Byte

/-- A statement on bytes that holds of all numbers below 256. -/
theorem forall_of_fin {p : UInt8 → Prop} (h : ∀ n : Fin 256, p ⟨⟨n⟩⟩) (b : UInt8) : p b :=
  h b.toBitVec.toFin

def isLetter (b : UInt8) : Bool := isUpper b || isLower b

-- The classes are intervals of bytes, so what they have to do with one another is arithmetic.
attribute [grind =] isBlank isDigit isUpper isLower isLetter isAsciiWord isWord lower

/-- The class holds a letter in both cases or in none. -/
def IgnoresCase (inClass : UInt8 → Bool) : Prop := ∀ b, inClass (lower b) = inClass b

theorem lower_of_isUpper_eq_false {b : UInt8} (h : isUpper b = false) : lower b = b := by
  simp [lower, h]

theorem isLetter_lower (b : UInt8) : isLetter (lower b) = isLetter b := by grind

theorem isUpper_lower (b : UInt8) : isUpper (lower b) = false := by grind

@[simp] theorem lower_lower (b : UInt8) : lower (lower b) = lower b :=
  lower_of_isUpper_eq_false (isUpper_lower b)

theorem lower_of_isLetter_eq_false {b : UInt8} (h : isLetter b = false) : lower b = b :=
  lower_of_isUpper_eq_false (Bool.or_eq_false_iff.mp h).1

theorem lower_eq_iff {b c : UInt8} (hc : isLetter c = false) : lower b = c ↔ b = c := by
  constructor
  · rintro rfl
    exact (lower_of_isLetter_eq_false (isLetter_lower b ▸ hc)).symm
  · rintro rfl
    exact lower_of_isLetter_eq_false hc

theorem ignoresCase_isBlank : IgnoresCase isBlank := fun b => by grind

theorem ignoresCase_isDigit : IgnoresCase isDigit := fun b => by grind

theorem ignoresCase_isAsciiWord : IgnoresCase isAsciiWord := fun b => by grind

theorem ignoresCase_isWord : IgnoresCase isWord := fun b => by grind

theorem lower_of_isDigit {b : UInt8} : isDigit b → lower b = b := by grind

theorem isBlank_of_isLetter {b : UInt8} : isLetter b → isBlank b = false := by grind

theorem isDigit_of_isLetter {b : UInt8} : isLetter b → isDigit b = false := by grind

theorem ne_of_isLetter {b mark : UInt8} (hb : isLetter b) (hmark : isLetter mark = false) :
    b ≠ mark := by
  rintro rfl
  rw [hmark] at hb
  contradiction

/-- In ASCII both kinds of word byte are the same. -/
theorem isWord_eq_isAsciiWord {b : UInt8} : b < 0x80 → isWord b = isAsciiWord b := by grind

theorem lt_of_isAsciiWord {b : UInt8} : isAsciiWord b → b < 0x80 := by grind

end Byte

namespace Text

open Byte (IgnoresCase)

/-! ## Parts of a text -/

@[simp] theorem lower_cons (b : UInt8) (t : Text) : lower (b :: t) = Byte.lower b :: lower t := rfl

theorem lower_append (t u : Text) : lower (t ++ u) = lower t ++ lower u := List.map_append

@[simp] theorem lower_lower (t : Text) : lower (lower t) = lower t := by
  simp [lower]

theorem length_eq_of_lower_eq {t u : Text} (h : lower t = lower u) : t.length = u.length := by
  rw [← length_lower t, h, length_lower]

theorem ne_nil_of_lower_eq {t u : Text} (h : lower t = lower u) (hne : u ≠ []) : t ≠ [] := by
  rintro rfl
  exact hne (List.length_eq_zero_iff.mp (length_eq_of_lower_eq h).symm)

@[simp] theorem isEmpty_lower (t : Text) : (lower t).isEmpty = t.isEmpty := by
  cases t <;> rfl

@[simp] theorem head?_lower (t : Text) : (lower t).head? = t.head?.map Byte.lower := List.head?_map

@[simp] theorem drop_lower (n : Nat) (t : Text) : (lower t).drop n = lower (t.drop n) :=
  List.map_drop.symm

@[simp] theorem take_lower (n : Nat) (t : Text) : (lower t).take n = lower (t.take n) :=
  List.map_take.symm

section Class

variable {inClass : UInt8 → Bool} (h : IgnoresCase inClass)
include h

theorem ignoresCase_comp : inClass ∘ Byte.lower = inClass := funext h

theorem takeWhile_lower (t : Text) : (lower t).takeWhile inClass = lower (t.takeWhile inClass) := by
  rw [lower, List.takeWhile_map, ignoresCase_comp h, lower]

theorem dropWhile_lower (t : Text) : (lower t).dropWhile inClass = lower (t.dropWhile inClass) := by
  rw [lower, List.dropWhile_map, ignoresCase_comp h, lower]

theorem splitOnP_lower (t : Text) :
    (lower t).splitOnP inClass = (t.splitOnP inClass).map lower := by
  induction t with
  | nil => rfl
  | cons b rest ih =>
    rw [lower_cons, List.splitOnP_cons_eq_if_modifyHead, List.splitOnP_cons_eq_if_modifyHead, h, ih]
    split
    next => rfl
    next => cases rest.splitOnP inClass <;> rfl

theorem any_head?_lower (t : Text) : (lower t).head?.any inClass = t.head?.any inClass := by
  cases t with
  | nil => rfl
  | cons b rest => exact h b

end Class

theorem all_lower_neighbour {inClass : UInt8 → Bool} (h : IgnoresCase inClass)
    (neighbour : Option UInt8) :
    ((neighbour.map Byte.lower).all fun b => !inClass b) = neighbour.all fun b => !inClass b := by
  cases neighbour with
  | none => rfl
  | some b => simp [h b]

/-! ## Digits and other bytes without case -/

theorem head?_lower_beq {c : UInt8} (hc : Byte.isLetter c = false) (t : Text) :
    ((lower t).head? == some c) = (t.head? == some c) := by
  cases t with
  | nil => rfl
  | cons b rest => exact Bool.eq_iff_iff.mpr (by simp [Byte.lower_eq_iff hc])

theorem lower_of_forall_isDigit {t : Text} (h : ∀ b ∈ t, Byte.isDigit b) : lower t = t :=
  (List.map_congr_left fun b hb => Byte.lower_of_isDigit (h b hb)).trans (List.map_id t)

/-- Digits have no case, so a run of them is the same in the folded text. -/
theorem takeWhile_isDigit_lower (t : Text) :
    (lower t).takeWhile Byte.isDigit = t.takeWhile Byte.isDigit := by
  rw [takeWhile_lower Byte.ignoresCase_isDigit]
  exact lower_of_forall_isDigit (List.all_eq_true.mp List.all_takeWhile)

/-- A text without letters begins the folded text exactly if it begins the text. -/
theorem isPrefixOf_lower {symbol : Text} (h : ∀ b ∈ symbol, Byte.isLetter b = false) (t : Text) :
    symbol.isPrefixOf (lower t) = symbol.isPrefixOf t := by
  induction symbol generalizing t with
  | nil => rfl
  | cons b rest ih =>
    obtain ⟨hb, hrest⟩ := List.forall_mem_cons.mp h
    cases t with
    | nil => rfl
    | cons c t =>
      have hbeq : (b == Byte.lower c) = (b == c) :=
        Bool.eq_iff_iff.mpr (by simp [eq_comm (a := b), Byte.lower_eq_iff hb])
      simp only [lower_cons, List.isPrefixOf, hbeq, ih hrest]

/-! ## Blanks -/

@[simp] theorem trimStart_lower (t : Text) : trimStart (lower t) = lower (trimStart t) :=
  dropWhile_lower Byte.ignoresCase_isBlank t

@[simp] theorem trimEnd_lower (t : Text) : trimEnd (lower t) = lower (trimEnd t) := by
  have hreverse : ∀ u : Text, (lower u).reverse = lower u.reverse := fun u => List.map_reverse.symm
  rw [trimEnd, hreverse, dropWhile_lower Byte.ignoresCase_isBlank, hreverse, trimEnd]

@[simp] theorem trim_lower (t : Text) : trim (lower t) = lower (trim t) := by
  simp only [trim, trimStart_lower, trimEnd_lower]

@[simp] theorem label?_lower (t : Text) : label? (lower t) = (label? t).map lower := by
  simp only [label?, trim_lower, isEmpty_lower]
  split <;> rfl

theorem filterMap_label?_lower (parts : List Text) :
    (parts.map lower).filterMap label? = (parts.filterMap label?).map lower := by
  rw [List.filterMap_map, List.map_filterMap]
  exact congrArg (List.filterMap · parts) (funext label?_lower)

theorem words_lower (t : Text) : words (lower t) = (words t).map lower := by
  rw [words, splitOnP_lower Byte.ignoresCase_isBlank, List.filter_map, words]
  exact congrArg (fun p => List.map lower (List.filter p _))
    (funext fun w => congrArg not (isEmpty_lower w))

theorem intercalate_space_lower (ws : List Text) :
    [Byte.space].intercalate (ws.map lower) = lower ([Byte.space].intercalate ws) := by
  induction ws with
  | nil => rfl
  | cons w ws ih =>
    cases ws with
    | nil => simp [List.intercalate]
    | cons w' ws =>
      rw [List.map_cons, List.map_cons, List.intercalate_cons_cons, List.intercalate_cons_cons,
        ← List.map_cons, ih, lower_append, lower_append]
      rfl

theorem collapse_lower (t : Text) : collapse (lower t) = lower (collapse t) := by
  rw [collapse, words_lower, intercalate_space_lower, collapse]

/-! ## Keywords -/

@[simp] theorem startsWith_lower (needle t : Text) :
    startsWith needle (lower t) = startsWith needle t := by
  simp only [startsWith, take_lower, lower_lower]

@[simp] theorem startsWith_lower_left (needle t : Text) :
    startsWith (lower needle) t = startsWith needle t := by
  simp only [startsWith, length_lower, lower_lower]

end Text

end CatalogEdit
