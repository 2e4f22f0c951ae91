import CatalogEdit.Proofs.Text.Alone
import CatalogEdit.Proofs.Text.Scan
import CatalogEdit.Proofs.Text.Trim

/-!
# Removing a word that stands once

To remove a word is to put one space for one occurrence of it exactly if that occurrence stands
alone and no other one does. A word that ends where another occurrence of it has begun would be
missed, so occurrences must not overlap.

## Main definitions

* `Text.BeginsIn` — an occurrence begins in the first part of a text.
* `Text.IsApart` — no other occurrence begins in a word or right behind it.

## Main statements

* `Text.removeFrom_append_eq_append_iff` — what is read before the first occurrence is kept.
* `Text.removeWord_eq_iff` — when one occurrence is all that is removed.
-/

namespace CatalogEdit.Text

variable {word pre post rest t : Text} {before : Option UInt8}

/-! ## Where occurrences begin -/

/-- An occurrence stands in `pre ++ rest` and begins in `pre`; it may end in `rest`. -/
def BeginsIn (word : Text) (before : Option UInt8) (pre rest : Text) : Prop :=
  ∃ x y, pre = x ++ y ∧ y ≠ [] ∧ standsAtHead word (x.getLast?.or before) (y ++ rest)

theorem not_beginsIn_nil : ¬ BeginsIn word before [] rest := by
  rintro ⟨x, y, heq, hne, -⟩
  exact hne (List.append_eq_nil_iff.mp heq.symm).2

theorem beginsIn_cons {b : UInt8} :
    BeginsIn word before (b :: pre) rest ↔
      standsAtHead word before (b :: (pre ++ rest)) ∨ BeginsIn word (some b) pre rest := by
  constructor
  · rintro ⟨x, y, heq, hne, hstands⟩
    cases x with
    | nil =>
      obtain rfl : b :: pre = y := heq
      exact .inl hstands
    | cons c x =>
      obtain ⟨rfl, rfl⟩ := List.cons.inj heq
      exact .inr ⟨x, y, rfl, hne, getLast?_cons_or b x before ▸ hstands⟩
  · rintro (hstands | ⟨x, y, rfl, hne, hstands⟩)
    · exact ⟨[], b :: pre, rfl, List.cons_ne_nil b pre, hstands⟩
    · exact ⟨b :: x, y, rfl, hne, (getLast?_cons_or b x before).symm ▸ hstands⟩

theorem standsBetween_iff :
    StandsBetween word pre post t ↔
      ∃ rest, t = pre ++ rest ∧ standsAtHead word pre.getLast? rest ∧
        post = rest.drop word.length := by
  constructor
  · rintro ⟨⟨found, rfl, hfound⟩, hbefore, hafter⟩
    have hlength := length_eq_of_lower_eq hfound
    refine ⟨found ++ post, List.append_assoc _ _ _, ?_, by rw [← hlength, List.drop_left]⟩
    exact standsAtHead_iff.mpr ⟨hbefore, found, post, rfl, hfound, hafter⟩
  · rintro ⟨rest, rfl, hstands, rfl⟩
    obtain ⟨hbefore, found, post, rfl, hfound, hafter⟩ := standsAtHead_iff.mp hstands
    have hlength := length_eq_of_lower_eq hfound
    rw [← hlength, List.drop_left]
    exact ⟨⟨found, (List.append_assoc _ _ _).symm, hfound⟩, hbefore, hafter⟩

/-! ## Removal up to an occurrence -/

section

variable (hne : word ≠ []) (hhead : ∀ b ∈ word.head?, Byte.isBlank b = false)
include hne hhead

/-- What gives way to a space is not blank itself. -/
theorem isBlank_of_standsAtHead {b : UInt8} (h : standsAtHead word before (b :: rest)) :
    Byte.isBlank b = false := by
  obtain ⟨-, found, rest', heq, hfound, -⟩ := standsAtHead_iff.mp h
  cases word with
  | nil => contradiction
  | cons c word =>
    cases found with
    | nil => contradiction
    | cons d found =>
      obtain ⟨rfl, -⟩ := List.cons.inj heq
      have hlower : Byte.lower b = Byte.lower c := (List.cons.inj hfound).1
      rw [← Byte.ignoresCase_isBlank b, hlower, Byte.ignoresCase_isBlank c]
      exact hhead c rfl

/-- What is read is kept exactly as long as no occurrence begins in it. -/
theorem removeFrom_append_eq_append_iff {u : Text} :
    removeFrom word before (pre ++ rest) = pre ++ u ↔
      ¬ BeginsIn word before pre rest ∧
        removeFrom word (pre.getLast?.or before) rest = u := by
  induction pre generalizing before with
  | nil => simp [not_beginsIn_nil]
  | cons b pre ih =>
    rw [beginsIn_cons, List.cons_append, List.cons_append]
    cases hstands : standsAtHead word before (b :: (pre ++ rest)) with
    | true =>
      rw [removeFrom_of_standsAtHead hne hstands]
      have hb : Byte.space ≠ b := by
        rintro rfl
        exact absurd (isBlank_of_standsAtHead hne hhead hstands) (by decide)
      simp [hb]
    | false =>
      rw [removeFrom_cons hstands, List.cons_inj_right, ih, getLast?_cons_or]
      simp

theorem removeFrom_eq_self_iff :
    removeFrom word before t = t ↔ ¬ BeginsIn word before t [] := by
  have h : removeFrom word before (t ++ []) = t ++ [] ↔
      ¬ BeginsIn word before t [] ∧ removeFrom word (t.getLast?.or before) [] = [] :=
    removeFrom_append_eq_append_iff hne hhead
  simpa using h

/-- A space for a word says that the word stood there and that none stands behind it. -/
theorem removeFrom_append_eq_cons_iff :
    removeFrom word before (word ++ post) = Byte.space :: post ↔
      standsAtHead word before (word ++ post) ∧ ¬ BeginsIn word (some Byte.space) post [] := by
  cases hstands : standsAtHead word before (word ++ post) with
  | true =>
    rw [removeFrom_of_standsAtHead hne hstands, List.drop_left, List.cons_inj_right,
      removeFrom_eq_self_iff hne hhead]
    simp
  | false =>
    cases word with
    | nil => contradiction
    | cons b word =>
      have hb : b ≠ Byte.space := by
        rintro rfl
        exact absurd (hhead Byte.space rfl) (by decide)
      rw [List.cons_append] at hstands ⊢
      rw [removeFrom_cons hstands]
      simp [hb]

end

/-! ## A single occurrence -/

/-- Where `post` follows `word`, no occurrence of `word` begins after its first byte or right behind
it. -/
def IsApart (word post : Text) : Prop :=
  ∀ x y, word ++ post = x ++ y → x ≠ [] → x.length ≤ word.length → ¬ startsWith word y

/-- An occurrence that begins after the first byte of `word` or right behind it ends in `post`. -/
theorem exists_beyond {x found : Text} (heq : word ++ post = x ++ (found ++ rest)) (hx : x ≠ [])
    (hlength : x.length ≤ word.length) (hfound : lower found = lower word) :
    ∃ beyond, post = beyond ++ rest ∧ beyond <:+ found ∧ beyond ≠ [] := by
  have hsame := length_eq_of_lower_eq hfound
  have hdrop : word.drop x.length ++ post = found ++ rest := by
    rw [← List.drop_append_of_le_length hlength, heq, List.drop_left]
  have hshort : (word.drop x.length).length < found.length := by
    have hpos := List.length_pos_of_ne_nil hx
    rw [List.length_drop]
    omega
  rcases List.append_eq_append_iff.mp hdrop with ⟨beyond, rfl, hpost⟩ | ⟨rest', hlong, -⟩
  · refine ⟨beyond, hpost, List.suffix_append _ _, ?_⟩
    rintro rfl
    simp at hshort
  · rw [hlong, List.length_append] at hshort
    omega

theorem isBlank_getLast?_of_lower_eq {found : Text} (h : lower found = lower word)
    (hlast : ∀ b ∈ word.getLast?, Byte.isBlank b = false) :
    ∀ b ∈ found.getLast?, Byte.isBlank b = false := by
  intro b hb
  have hlower : found.getLast?.map Byte.lower = word.getLast?.map Byte.lower := by
    simpa [lower, List.getLast?_map] using congrArg List.getLast? h
  rw [Option.mem_def.mp hb] at hlower
  obtain ⟨c, hc, hcase⟩ := Option.map_eq_some_iff.mp hlower.symm
  rw [← Byte.ignoresCase_isBlank, ← hcase, Byte.ignoresCase_isBlank]
  exact hlast c hc

theorem startsWith_of_standsAtHead (h : standsAtHead word before t) : startsWith word t := by
  simp only [standsAtHead, Bool.and_eq_true] at h
  exact h.1.2

theorem ne_nil_of_standsAtHead (hne : word ≠ []) (h : standsAtHead word before t) : t ≠ [] := by
  rintro rfl
  have hstart := startsWith_of_standsAtHead h
  simp [startsWith, lower, hne] at hstart

/-- Behind the first byte it no longer matters what was read before. -/
theorem getLast?_append_eq_or {x : Text} (hx : x ≠ []) (pre : Text) (before : Option UInt8) :
    (pre ++ x).getLast? = x.getLast?.or before := by
  obtain ⟨b, hb⟩ := Option.ne_none_iff_exists'.mp (mt List.getLast?_eq_none_iff.mp hx)
  rw [List.getLast?_append_of_ne_nil _ hx, hb, Option.some_or]

/-- The other occurrences begin before or behind. -/
theorem forall_standsBetween_iff (hne : word ≠ []) (hapart : IsApart word post) :
    (∀ a c, StandsBetween word a c (pre ++ (word ++ post)) → a = pre) ↔
      ¬ BeginsIn word none pre (word ++ post) ∧ ¬ BeginsIn word (some Byte.space) post [] := by
  constructor
  · intro honce
    constructor
    · rintro ⟨x, y, rfl, hy, hstands⟩
      rw [Option.or_none] at hstands
      have hx := honce x _ (standsBetween_iff.mpr ⟨_, List.append_assoc _ _ _, hstands, rfl⟩)
      exact hy (by simpa using hx)
    · rintro ⟨x, y, rfl, -, hstands⟩
      rw [List.append_nil] at hstands
      by_cases hx : x = []
      · rw [hx] at hapart hstands
        exact hapart word y rfl hne le_rfl (startsWith_of_standsAtHead hstands)
      · rw [← getLast?_append_eq_or hx (pre ++ word)] at hstands
        have heq := honce _ _ (standsBetween_iff.mpr ⟨y, by simp, hstands, rfl⟩)
        simp [hne] at heq
  · rintro ⟨hbefore, hbehind⟩ a c hbetween
    obtain ⟨rest, heq, hstands, -⟩ := standsBetween_iff.mp hbetween
    rcases List.append_eq_append_iff.mp heq with ⟨gap, rfl, hgap⟩ | ⟨gap, rfl, rfl⟩
    · by_cases hnil : gap = []
      · rw [hnil, List.append_nil]
      by_cases hlength : gap.length ≤ word.length
      · exact absurd (startsWith_of_standsAtHead hstands) (hapart gap rest hgap hnil hlength)
      · rcases List.append_eq_append_iff.mp hgap with ⟨x, rfl, rfl⟩ | ⟨x, rfl, -⟩
        · have hx : x ≠ [] := by
            rintro rfl
            simp at hlength
          rw [← List.append_assoc, getLast?_append_eq_or hx _ (some Byte.space)] at hstands
          have hrest := ne_nil_of_standsAtHead hne hstands
          exact absurd ⟨x, rest, rfl, hrest, by rwa [List.append_nil]⟩ hbehind
        · simp at hlength
    · by_cases hnil : gap = []
      · rw [hnil, List.append_nil]
      · exact absurd ⟨a, gap, rfl, hnil, by rwa [Option.or_none]⟩ hbefore

/-- A word is removed at one place and nowhere else exactly if it stands alone at that place and
nowhere else. -/
theorem removeWord_eq_iff (hne : word ≠ []) (hhead : ∀ b ∈ word.head?, Byte.isBlank b = false)
    (hapart : IsApart word post) :
    removeWord word (pre ++ (word ++ post)) = pre ++ Byte.space :: post ↔
      StandsBetween word pre post (pre ++ (word ++ post)) ∧
        ∀ a c, StandsBetween word a c (pre ++ (word ++ post)) → a = pre := by
  have hhere : StandsBetween word pre post (pre ++ (word ++ post)) ↔
      standsAtHead word pre.getLast? (word ++ post) := by
    rw [standsBetween_iff]
    constructor
    · rintro ⟨rest, heq, hstands, -⟩
      rwa [List.append_cancel_left heq]
    · exact fun hstands => ⟨_, rfl, hstands, List.drop_left.symm⟩
  rw [removeWord_eq_removeFrom, removeFrom_append_eq_append_iff hne hhead,
    removeFrom_append_eq_cons_iff hne hhead, hhere, forall_standsBetween_iff hne hapart,
    Option.or_none]
  exact and_left_comm

end CatalogEdit.Text
