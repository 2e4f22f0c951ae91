import CatalogEdit.Text.Scan
import Mathlib.Data.List.TakeWhile

/-!
# Trimmed texts

What trimming leaves has no blank at either end and consists of bytes of the text. A label is what
trimming leaves, if that is anything.

## Main definitions

* `Text.IsTrimmed` — no blank at either end.

## Main statements

* `Text.isTrimmed_trim` — trimming leaves a trimmed text.
* `Text.trim_append_part` — trimming does not reach beyond a trimmed part.
* `Text.label?_eq_some`, `Text.label?_eq_none` — the labels of a text.
-/

namespace CatalogEdit.Text

/-- Neither the first byte nor the last one is blank. -/
structure IsTrimmed (t : Text) : Prop where
  head : ∀ b ∈ t.head?, Byte.isBlank b = false
  last : ∀ b ∈ t.getLast?, Byte.isBlank b = false

/-! ## Trimming -/

theorem isBlank_head?_trimStart (t : Text) : ∀ b ∈ (trimStart t).head?, Byte.isBlank b = false := by
  intro b hb
  have h := List.head?_dropWhile_not Byte.isBlank t
  rw [show t.dropWhile Byte.isBlank = trimStart t from rfl, Option.mem_def.mp hb] at h
  exact h

theorem trimEnd_prefix_self (t : Text) : trimEnd t <+: t := by
  have h := List.dropWhile_suffix Byte.isBlank (l := t.reverse)
  simpa [trimEnd] using List.reverse_prefix.mpr h

/-- Trimming the end takes away blanks. -/
theorem exists_blanks_trimEnd (t : Text) :
    ∃ blanks, t = trimEnd t ++ blanks ∧ ∀ b ∈ blanks, Byte.isBlank b := by
  refine ⟨(t.reverse.takeWhile Byte.isBlank).reverse, ?_, fun b hb => ?_⟩
  · rw [trimEnd, ← List.reverse_append, List.takeWhile_append_dropWhile, List.reverse_reverse]
  · exact List.all_eq_true.mp List.all_takeWhile b (List.mem_reverse.mp hb)

theorem exists_blanks_trimStart (t : Text) :
    ∃ blanks, t = blanks ++ trimStart t ∧ ∀ b ∈ blanks, Byte.isBlank b :=
  ⟨t.takeWhile Byte.isBlank, List.takeWhile_append_dropWhile.symm,
    List.all_eq_true.mp List.all_takeWhile⟩

theorem trimStart_append {blanks : Text} (h : ∀ b ∈ blanks, Byte.isBlank b) (t : Text) :
    trimStart (blanks ++ t) = trimStart t :=
  List.dropWhile_append_of_pos h

theorem trimEnd_append {blanks : Text} (h : ∀ b ∈ blanks, Byte.isBlank b) (t : Text) :
    trimEnd (t ++ blanks) = trimEnd t := by
  rw [trimEnd, List.reverse_append,
    List.dropWhile_append_of_pos fun b hb => h b (List.mem_reverse.mp hb), trimEnd]

theorem trimStart_eq_self {t : Text} (h : ∀ b ∈ t.head?, Byte.isBlank b = false) :
    trimStart t = t := by
  cases t with
  | nil => rfl
  | cons b rest => simp [trimStart, h b rfl]

theorem trimEnd_eq_self {t : Text} (h : ∀ b ∈ t.getLast?, Byte.isBlank b = false) :
    trimEnd t = t := by
  have hreverse : trimStart t.reverse = t.reverse := trimStart_eq_self (by simpa using h)
  rw [trimEnd, show t.reverse.dropWhile Byte.isBlank = t.reverse from hreverse,
    List.reverse_reverse]

/-- Trimming takes away the blanks around a text without blanks at its ends. -/
theorem trim_append_append {left t right : Text} (hleft : ∀ b ∈ left, Byte.isBlank b)
    (hne : t ≠ []) (ht : IsTrimmed t) (hright : ∀ b ∈ right, Byte.isBlank b) :
    trim (left ++ (t ++ right)) = t := by
  have hhead : ∀ b ∈ (t ++ right).head?, Byte.isBlank b = false := by
    cases t with
    | nil => contradiction
    | cons b t => exact ht.head
  rw [trim, trimStart_append hleft, trimStart_eq_self hhead, trimEnd_append hright,
    trimEnd_eq_self ht.last]

theorem trimStart_append_of_head? {q : Text} (h : ∃ b ∈ q.head?, Byte.isBlank b = false)
    (p : Text) : trimStart (p ++ q) = trimStart p ++ q := by
  obtain ⟨b, hb, hblank⟩ := h
  have hq : q.dropWhile Byte.isBlank = q :=
    trimStart_eq_self fun c hc => Option.some.inj (hc.symm.trans hb) ▸ hblank
  rw [trimStart, List.dropWhile_append, hq, trimStart]
  split
  next hnil => rw [List.isEmpty_iff.mp hnil, List.nil_append]
  next => rfl

theorem trimEnd_append_of_getLast? {p : Text} (h : ∃ b ∈ p.getLast?, Byte.isBlank b = false)
    (q : Text) : trimEnd (p ++ q) = p ++ trimEnd q := by
  have hstart : trimStart (q.reverse ++ p.reverse) = trimStart q.reverse ++ p.reverse :=
    trimStart_append_of_head? (by simpa using h) q.reverse
  rw [trimEnd, List.reverse_append]
  exact (congrArg List.reverse hstart).trans (by simp [trimEnd, trimStart])

/-- Trimming reaches no further than to a part without blanks at its ends. -/
theorem trim_append_part {part : Text} (hne : part ≠ []) (hpart : IsTrimmed part) (p q : Text) :
    trim (p ++ (part ++ q)) = trimStart p ++ (part ++ trimEnd q) := by
  have hhead : ∃ b ∈ (part ++ q).head?, Byte.isBlank b = false := by
    cases part with
    | nil => contradiction
    | cons b part => exact ⟨b, rfl, hpart.head b rfl⟩
  have hlast : ∃ b ∈ (trimStart p ++ part).getLast?, Byte.isBlank b = false := by
    have hsome := List.getLast?_eq_some_getLast hne
    exact ⟨part.getLast hne, by simp [List.getLast?_append, hsome], hpart.last _ hsome⟩
  rw [trim, trimStart_append_of_head? hhead, ← List.append_assoc,
    trimEnd_append_of_getLast? hlast, List.append_assoc]

/-- A text is what trimming leaves of it, with blanks around that. -/
theorem exists_blanks_trim (t : Text) :
    ∃ left right, t = left ++ (trim t ++ right) ∧ (∀ b ∈ left, Byte.isBlank b) ∧
      ∀ b ∈ right, Byte.isBlank b := by
  obtain ⟨left, hleft, hblankLeft⟩ := exists_blanks_trimStart t
  obtain ⟨right, hright, hblankRight⟩ := exists_blanks_trimEnd (trimStart t)
  exact ⟨left, right, by rw [trim, ← hright, ← hleft], hblankLeft, hblankRight⟩

theorem isTrimmed_trim (t : Text) : IsTrimmed (trim t) where
  head b hb := by
    obtain ⟨rest, hrest⟩ := trimEnd_prefix_self (trimStart t)
    refine isBlank_head?_trimStart t b ?_
    rw [← hrest, List.head?_append]
    simp only [trim, Option.mem_def] at hb
    simp [hb]
  last b hb := by
    simp only [trim, trimEnd, List.getLast?_reverse] at hb
    exact isBlank_head?_trimStart _ b hb

/-- Only the bytes at the ends say whether there are blanks at the ends. -/
theorem isTrimmed_iff_of_map {t u : Text} {f : UInt8 → UInt8}
    (hf : ∀ b, Byte.isBlank (f b) = Byte.isBlank b) (hhead : u.head? = t.head?.map f)
    (hlast : u.getLast? = t.getLast?.map f) : IsTrimmed u ↔ IsTrimmed t := by
  have hblank : ∀ neighbour : Option UInt8,
      (∀ b ∈ neighbour.map f, Byte.isBlank b = false) ↔
        ∀ b ∈ neighbour, Byte.isBlank b = false := by
    intro neighbour
    cases neighbour <;> simp [hf]
  constructor
  · intro h
    exact ⟨(hblank _).mp (hhead ▸ h.head), (hblank _).mp (hlast ▸ h.last)⟩
  · intro h
    exact ⟨hhead ▸ (hblank _).mpr h.head, hlast ▸ (hblank _).mpr h.last⟩

theorem trim_eq_self {t : Text} (h : IsTrimmed t) : trim t = t := by
  rw [trim, trimStart_eq_self h.head, trimEnd_eq_self h.last]

theorem mem_of_mem_trim {t : Text} {b : UInt8} (h : b ∈ trim t) : b ∈ t :=
  (List.dropWhile_suffix _).subset ((trimEnd_prefix_self _).subset h)

/-! ## Labels -/

theorem label?_eq_some {t u : Text} : label? t = some u ↔ trim t = u ∧ u ≠ [] := by
  simp only [label?, List.isEmpty_iff]
  split <;> grind

theorem trimEnd_eq_nil {t : Text} : trimEnd t = [] ↔ ∀ b ∈ t, Byte.isBlank b := by
  rw [trimEnd, List.reverse_eq_nil_iff, List.dropWhile_eq_nil_iff]
  simp only [List.mem_reverse]

/-- There is no label exactly if there is nothing but blanks. -/
theorem label?_eq_none {t : Text} : label? t = none ↔ ∀ b ∈ t, Byte.isBlank b := by
  have htrim : label? t = none ↔ trim t = [] := by
    simp only [label?, List.isEmpty_iff]
    split <;> simp_all
  have hstart : trimStart t = [] ↔ ∀ b ∈ t, Byte.isBlank b := List.dropWhile_eq_nil_iff
  rw [htrim, trim, trimEnd_eq_nil, ← hstart]
  constructor
  · intro hblank
    cases hcons : trimStart t with
    | nil => rfl
    | cons b rest =>
      have hb := isBlank_head?_trimStart t b (by rw [hcons]; rfl)
      rw [hblank b (by simp [hcons])] at hb
      contradiction
  · intro hnil b hb
    rw [hnil] at hb
    contradiction

theorem label?_of_not_isBlank {t : Text} (h : t.all Byte.isBlank = false) :
    label? t = some (trim t) := by
  cases hlabel : label? t with
  | none => simp [List.all_eq_true.mpr (label?_eq_none.mp hlabel)] at h
  | some u => rw [(label?_eq_some.mp hlabel).1]

/-- The labels of some texts are what trimming leaves of those that are not blank. -/
theorem filterMap_label? (parts : List Text) :
    parts.filterMap label? = (parts.filter fun part => !part.all Byte.isBlank).map trim := by
  induction parts with
  | nil => rfl
  | cons part parts ih =>
    rw [List.filterMap_cons, List.filter_cons, ih]
    cases hblank : part.all Byte.isBlank with
    | true => simp [label?_eq_none.mpr (List.all_eq_true.mp hblank)]
    | false => simp [label?_of_not_isBlank hblank]

/-- A text without a blank at its head is its label and the blanks behind it. -/
theorem exists_blanks_of_label? {t u : Text} (h : label? t = some u)
    (hhead : ∀ b ∈ t.head?, Byte.isBlank b = false) :
    ∃ blanks, t = u ++ blanks ∧ ∀ b ∈ blanks, Byte.isBlank b := by
  obtain ⟨rfl, -⟩ := label?_eq_some.mp h
  rw [trim, trimStart_eq_self hhead]
  exact exists_blanks_trimEnd t

theorem label?_ne_nil {t u : Text} (h : label? t = some u) : u ≠ [] := (label?_eq_some.mp h).2

theorem isTrimmed_of_label? {t u : Text} (h : label? t = some u) : IsTrimmed u :=
  (label?_eq_some.mp h).1 ▸ isTrimmed_trim t

theorem mem_of_mem_label? {t u : Text} (h : label? t = some u) {b : UInt8} (hb : b ∈ u) : b ∈ t :=
  mem_of_mem_trim ((label?_eq_some.mp h).1 ▸ hb)

end CatalogEdit.Text
