import CatalogEdit.Proofs.Text.Search
import CatalogEdit.Proofs.Text.Spread

/-!
# Where keywords stand

A keyword is found where its letters stand in any case, either anywhere or only where a word may
start. A keyword without blanks is found word by word, so the blanks around a text do not matter.

## Main definitions

* `Text.StandsBehind` — a keyword stands in a text, behind a place of a given kind.

## Main statements

* `Text.hasWordStart_iff`, `Text.occurs_iff` — which keywords are found.
* `Text.occurs_of_hasWordStart` — what is found at the start of a word is found anywhere.
* `Text.hasAnyWordStart_trim`, `Text.anyOccurs_trim` — blanks around a text hold no keyword.
-/

namespace CatalogEdit.Text

/-- The keyword stands in `t`, in any case of its letters, where `isStart` holds of the byte
before. -/
def StandsBehind (isStart : Option UInt8 → Bool) (keyword t : Text) : Prop :=
  ∃ pre found post, t = pre ++ (found ++ post) ∧ lower found = lower keyword ∧
    isStart pre.getLast?

variable {isStart : Option UInt8 → Bool} {keyword t : Text}

/-! ## Which keywords are found -/

/-- A search for a keyword finds it exactly if it stands somewhere. -/
theorem isSome_search_iff (hne : keyword ≠ []) :
    (search (fun before rest =>
      if isStart before && startsWith keyword rest then some () else none) t).isSome ↔
      StandsBehind isStart keyword t := by
  simp only [search, isSome_searchFrom_iff, Option.or_none]
  constructor
  · rintro ⟨pre, rest, rfl, -, hfound⟩
    have hhead : isStart pre.getLast? && startsWith keyword rest := by
      by_contra hnot
      simp [hnot] at hfound
    rw [Bool.and_eq_true, startsWith_iff] at hhead
    obtain ⟨hstart, found, post, rfl, hlower⟩ := hhead
    exact ⟨pre, found, post, rfl, hlower, hstart⟩
  · rintro ⟨pre, found, post, rfl, hlower, hstart⟩
    have hfound := ne_nil_of_lower_eq hlower hne
    have hhead : startsWith keyword (found ++ post) := startsWith_iff.mpr ⟨found, post, rfl, hlower⟩
    exact ⟨pre, found ++ post, rfl, by simp [hfound], by simp [hstart, hhead]⟩

theorem hasWordStart_iff :
    hasWordStart keyword t ↔ keyword ≠ [] ∧ StandsBehind isWordEdge keyword t := by
  rw [hasWordStart, Bool.and_eq_true, Bool.not_eq_true', List.isEmpty_eq_false_iff]
  exact and_congr_right fun hne => isSome_search_iff hne

theorem occurs_iff :
    occurs keyword t ↔ keyword ≠ [] ∧ StandsBehind (fun _ => true) keyword t := by
  rw [occurs, Bool.and_eq_true, Bool.not_eq_true', List.isEmpty_eq_false_iff]
  exact and_congr_right fun hne => @isSome_search_iff (fun _ => true) keyword t hne

/-- A keyword that starts a word stands in the text. -/
theorem occurs_of_hasWordStart (h : hasWordStart keyword t) : occurs keyword t := by
  obtain ⟨hne, pre, found, post, heq, hlower, -⟩ := hasWordStart_iff.mp h
  exact occurs_iff.mpr ⟨hne, pre, found, post, heq, hlower, rfl⟩

/-! ## Keywords without blanks -/

section

variable (hword : IsBlankFree keyword)
include hword

theorem not_standsBehind_nil : ¬ StandsBehind isStart keyword [] := by
  rintro ⟨pre, found, post, heq, hlower, -⟩
  obtain ⟨-, hnil⟩ := List.append_eq_nil_iff.mp heq.symm
  obtain ⟨rfl, -⟩ := List.append_eq_nil_iff.mp hnil
  exact ne_nil_of_lower_eq hlower hword.ne_nil rfl

variable (hnone : isStart none) (hblank : ∀ b, Byte.isBlank b → isStart (some b))
include hnone hblank

/-- A keyword without blanks stands on one side of a blank. -/
theorem standsBehind_append_cons_iff {b : UInt8} (hb : Byte.isBlank b) (t u : Text) :
    StandsBehind isStart keyword (t ++ b :: u) ↔
      StandsBehind isStart keyword t ∨ StandsBehind isStart keyword u := by
  constructor
  · rintro ⟨pre, found, post, heq, hlower, hstart⟩
    have hnotMem : b ∉ found := fun hmem => by
      rw [isBlank_of_lower_eq hlower hword b hmem] at hb
      contradiction
    rcases left_or_right_of_notMem hnotMem heq with ⟨gap, rfl, rfl⟩ | ⟨gap, rfl, rfl⟩
    · exact .inl ⟨pre, found, gap, List.append_assoc _ _ _, hlower, hstart⟩
    · refine .inr ⟨gap, found, post, rfl, hlower, ?_⟩
      cases gap with
      | nil => exact hnone
      | cons c gap =>
        rwa [List.getLast?_append_of_ne_nil _ (List.cons_ne_nil _ _),
          List.getLast?_cons_cons] at hstart
  · rintro (⟨pre, found, post, rfl, hlower, hstart⟩ | ⟨pre, found, post, rfl, hlower, hstart⟩)
    · exact ⟨pre, found, post ++ b :: u, by simp, hlower, hstart⟩
    · refine ⟨t ++ b :: pre, found, post, by simp, hlower, ?_⟩
      rw [List.getLast?_append_of_ne_nil _ (List.cons_ne_nil b pre)]
      cases pre with
      | nil => exact hblank b hb
      | cons c pre => rwa [List.getLast?_cons_cons]

theorem standsBehind_iff_words (t : Text) :
    StandsBehind isStart keyword t ↔ ∃ w ∈ words t, StandsBehind isStart keyword w := by
  induction t using blank_induction with
  | plain t ht =>
    rw [words_of_forall_not_isBlank ht]
    cases t with
    | nil => simpa using not_standsBehind_nil hword
    | cons b t => simp
  | blank t b u hb iht ihu =>
    simp only [standsBehind_append_cons_iff hword hnone hblank hb, words_append_cons hb,
      List.mem_append, or_and_right, exists_or, iht, ihu]

theorem standsBehind_trim (t : Text) :
    StandsBehind isStart keyword (trim t) ↔ StandsBehind isStart keyword t := by
  rw [standsBehind_iff_words hword hnone hblank, collapse_eq_iff.mp (collapse_trim t),
    ← standsBehind_iff_words hword hnone hblank]

end

theorem hasWordStart_trim (hword : IsBlankFree keyword) (t : Text) :
    hasWordStart keyword (trim t) = hasWordStart keyword t := by
  rw [Bool.eq_iff_iff, hasWordStart_iff, hasWordStart_iff,
    standsBehind_trim hword rfl fun b hb => by simp [isWord_of_isBlank hb]]

theorem occurs_trim (hword : IsBlankFree keyword) (t : Text) :
    occurs keyword (trim t) = occurs keyword t := by
  rw [Bool.eq_iff_iff, occurs_iff, occurs_iff, standsBehind_trim hword rfl fun _ _ => rfl]

/-! ## Lists of keywords -/

section

variable {keywords : List Text} (hwords : ∀ k ∈ keywords, IsBlankFree k)
include hwords

theorem hasAnyWordStart_trim (t : Text) :
    hasAnyWordStart keywords (trim t) = hasAnyWordStart keywords t := by
  rw [Bool.eq_iff_iff, hasAnyWordStart, hasAnyWordStart, List.any_eq_true, List.any_eq_true]
  exact exists_congr fun k => and_congr_right fun hk => by rw [hasWordStart_trim (hwords k hk)]

theorem anyOccurs_trim (t : Text) : anyOccurs keywords (trim t) = anyOccurs keywords t := by
  rw [Bool.eq_iff_iff, anyOccurs, anyOccurs, List.any_eq_true, List.any_eq_true]
  exact exists_congr fun k => and_congr_right fun hk => by rw [occurs_trim (hwords k hk)]

end

end CatalogEdit.Text
