import CatalogEdit.Proofs.Text.Spread

/-!
# Words joined by single spaces

To collapse the blanks of a text is to join its words by single spaces. It can be done in one pass
from left to right: no blank is written when it is read, but a space is due before the next byte
that is none, if anything was written before. At every byte, what is written is what the text read
so far collapses to. A text that is cut at blanks can as well be collapsed part by part.

## Main definitions

* `Text.HasWords` — a text spelled as words with blanks around them.
* `Text.isSpaceDue` — whether a byte behind a text would begin another word of it.
* `Text.Collapsing` — what one pass over a text has written, and whether a space is due.
* `Text.Collapsing.HasRead` — the pass has come to the end of a text.

## Main statements

* `Text.hasWords_iff` — a text is spelled in one way only.
* `Text.collapse_append_of_not_isBlank` — one byte more.
* `Text.Collapsing.HasRead.read` — one step of the pass.
* `Text.blanks_collapse_to_single_spaces` — what collapsing a text leaves.
-/

namespace CatalogEdit.Text

/-! ## Spelling -/

/-- The text consists of the words, in order, with any blanks at its ends and at least one blank
between two words. So every word reaches as far as it can. -/
inductive HasWords : Text → List Text → Prop
  | blanks {gap : Text} (blank : ∀ b ∈ gap, Byte.isBlank b) : HasWords gap []
  | word {gap word rest : Text} {ws : List Text} (blank : ∀ b ∈ gap, Byte.isBlank b)
      (isBlankFree : IsBlankFree word) (apart : ∀ b ∈ rest.head?, Byte.isBlank b)
      (behind : HasWords rest ws) : HasWords (gap ++ (word ++ rest)) (word :: ws)

variable {t u blanks : Text} {ws ws' : List Text} {b : UInt8}

theorem HasWords.words_eq (h : HasWords t ws) : words t = ws := by
  induction h with
  | blanks blank => exact words_eq_nil_iff.mpr blank
  | word blank isBlankFree apart _ ih =>
    rw [words_blanks_append blank, words_append_of_head? isBlankFree apart, ih]

theorem HasWords.blanks_append (h : HasWords t ws) (hblanks : ∀ b ∈ blanks, Byte.isBlank b) :
    HasWords (blanks ++ t) ws := by
  cases h with
  | blanks blank => exact .blanks (List.forall_mem_append.mpr ⟨hblanks, blank⟩)
  | word blank isBlankFree apart behind =>
    rw [← List.append_assoc]
    exact .word (List.forall_mem_append.mpr ⟨hblanks, blank⟩) isBlankFree apart behind

/-- Two texts that a blank keeps apart are spelled one after the other. -/
theorem HasWords.append_cons (ht : HasWords t ws) (hb : Byte.isBlank b) (hu : HasWords u ws') :
    HasWords (t ++ b :: u) (ws ++ ws') := by
  induction ht with
  | blanks blank =>
    rw [List.append_cons]
    refine hu.blanks_append (List.forall_mem_append.mpr ⟨blank, ?_⟩)
    simpa using hb
  | @word gap word rest ws blank isBlankFree apart _ ih =>
    rw [List.append_assoc, List.append_assoc]
    refine .word blank isBlankFree ?_ ih
    cases rest with
    | nil => simpa using hb
    | cons c rest => exact apart

theorem hasWords_words (t : Text) : HasWords t (words t) := by
  induction t using blank_induction with
  | plain t ht =>
    rw [words_of_forall_not_isBlank ht]
    cases t with
    | nil => exact .blanks (by simp)
    | cons b rest =>
      have hspelled : HasWords ([] ++ (b :: rest ++ [])) [b :: rest] :=
        .word (by simp) ⟨List.cons_ne_nil b rest, ht⟩ (by simp) (.blanks (by simp))
      simpa using hspelled
  | blank t b u hb iht ihu =>
    rw [words_append_cons hb]
    exact iht.append_cons hb ihu

/-- A text is spelled in one way only. -/
theorem hasWords_iff : HasWords t ws ↔ ws = words t :=
  ⟨fun h => h.words_eq.symm, fun h => h ▸ hasWords_words t⟩

/-! ## One byte more -/

theorem collapse_collapse (t : Text) : collapse (collapse t) = collapse t :=
  collapse_eq_iff.mpr (words_collapse t)

theorem collapse_append_of_isBlank (hb : Byte.isBlank b) (t : Text) :
    collapse (t ++ [b]) = collapse t := by
  refine collapse_eq_iff.mpr ?_
  rw [words_append_cons hb]
  exact List.append_nil _

/-- A byte behind a blank begins a word. -/
theorem collapse_append_of_getLast?_isBlank (ht : ∃ c ∈ t.getLast?, Byte.isBlank c)
    (hb : Byte.isBlank b = false) :
    collapse (t ++ [b]) =
      if collapse t = [] then [b] else collapse t ++ [Byte.space, b] := by
  obtain ⟨c, hc, hblank⟩ := ht
  obtain ⟨front, rfl⟩ := List.getLast?_eq_some_iff.mp hc
  have hwords : words (front ++ [c] ++ [b]) = words front ++ words [b] := by
    rw [List.append_assoc]
    exact words_append_cons hblank front [b]
  rw [collapse_eq_of_words hwords, collapse_append_of_isBlank hblank, collapse_singleton hb,
    if_neg (List.cons_ne_nil b [])]

/-- A byte behind a word belongs to it. -/
theorem collapse_append_of_getLast? (ht : ∃ c ∈ t.getLast?, Byte.isBlank c = false)
    (hb : Byte.isBlank b = false) : collapse (t ++ [b]) = collapse t ++ [b] := by
  induction t using blank_induction with
  | plain t hplain =>
    have hlonger : ∀ c ∈ t ++ [b], Byte.isBlank c = false :=
      List.forall_mem_append.mpr ⟨hplain, by simpa using hb⟩
    rw [collapse_of_forall_not_isBlank hplain, collapse_of_forall_not_isBlank hlonger]
  | blank t c u hc _ ihu =>
    obtain ⟨d, hd, hblank⟩ := ht
    -- The text after the blank ends with the word.
    have hlast : d ∈ u.getLast? := by
      cases u with
      | nil =>
        obtain rfl : c = d := by simpa using hd
        simp [hc] at hblank
      | cons e u => simpa [List.getLast?_append, List.getLast?_cons] using hd
    have hnil : collapse u ≠ [] := collapse_ne_nil_of_mem (List.mem_of_getLast? hlast) hblank
    rw [List.append_assoc, List.cons_append, collapse_eq_of_words (words_append_cons hc t _),
      collapse_eq_of_words (words_append_cons hc t u), ihu ⟨d, hlast, hblank⟩]
    by_cases ht : collapse t = [] <;> simp [ht, hnil]

/-- There is a word in the text, and blanks stand behind the last one. -/
def isSpaceDue (t : Text) : Bool := !(collapse t).isEmpty && t.getLast?.any Byte.isBlank

theorem collapse_append_of_not_isBlank (hb : Byte.isBlank b = false) (t : Text) :
    collapse (t ++ [b]) =
      (if isSpaceDue t then collapse t ++ [Byte.space] else collapse t) ++ [b] := by
  cases hlast : t.getLast? with
  | none =>
    obtain rfl := List.getLast?_eq_none_iff.mp hlast
    have hnil : collapse [] = [] := rfl
    simp [isSpaceDue, hnil, collapse_singleton hb]
  | some c =>
    cases hc : Byte.isBlank c with
    | true =>
      rw [collapse_append_of_getLast?_isBlank ⟨c, hlast, hc⟩ hb]
      by_cases hnil : collapse t = [] <;> simp [isSpaceDue, hlast, hc, hnil]
    | false =>
      rw [collapse_append_of_getLast? ⟨c, hlast, hc⟩ hb]
      simp [isSpaceDue, hlast, hc]

/-! ## One pass -/

/-- What is written of a text that is read byte by byte, and whether a space is due before the next
byte that is not blank. -/
structure Collapsing where
  written : Text := []
  spaceDue : Bool := false

namespace Collapsing

/-- Read one more byte. At the head of a text blanks are passed over. -/
def read (c : Collapsing) (b : UInt8) : Collapsing :=
  if Byte.isBlank b then
    { c with spaceDue := !c.written.isEmpty }
  else
    { written := (if c.spaceDue then c.written ++ [Byte.space] else c.written) ++ [b]
      spaceDue := false }

def ofText (t : Text) : Collapsing := t.foldl read {}

/-- All of `t` was read. -/
structure HasRead (t : Text) (c : Collapsing) : Prop where
  written : c.written = collapse t
  spaceDue : c.spaceDue = isSpaceDue t

theorem hasRead_nil : HasRead [] {} := ⟨rfl, rfl⟩

theorem HasRead.read {c : Collapsing} (h : HasRead t c) (b : UInt8) :
    HasRead (t ++ [b]) (c.read b) := by
  obtain ⟨hwritten, hdue⟩ := h
  cases hb : Byte.isBlank b with
  | true =>
    rw [Collapsing.read, if_pos hb]
    constructor
    · rw [collapse_append_of_isBlank hb, hwritten]
    · simp [isSpaceDue, collapse_append_of_isBlank hb, hwritten, hb]
  | false =>
    rw [Collapsing.read, hb, if_neg Bool.false_ne_true]
    constructor
    · rw [collapse_append_of_not_isBlank hb, hwritten, hdue]
    · simp [isSpaceDue, hb]

theorem hasRead_ofText (t : Text) : HasRead t (ofText t) := by
  induction t using List.reverseRecOn with
  | nil => exact hasRead_nil
  | append_singleton t b ih =>
    have hstep : ofText (t ++ [b]) = (ofText t).read b := List.foldl_append
    exact hstep ▸ ih.read b

end Collapsing

/-! ## What is left -/

/-- One pass over a text collapses it. What it leaves are the words of the text, which can be
spelled in one way only, joined by single spaces. So nothing changes when it is collapsed again or
trimmed before, and a text cut at blanks is collapsed part by part. -/
theorem blanks_collapse_to_single_spaces (t : Text) :
    (Collapsing.ofText t).written = collapse t ∧
    (∃ ws, (∀ ws', HasWords t ws' ↔ ws' = ws) ∧ collapse t = [Byte.space].intercalate ws) ∧
    collapse (collapse t) = collapse t ∧
    collapse (trim t) = collapse t ∧
    ∀ blanks u, blanks ≠ [] → (∀ b ∈ blanks, Byte.isBlank b) →
      collapse (t ++ (blanks ++ u)) =
        if collapse t = [] then collapse u
        else if collapse u = [] then collapse t
        else collapse t ++ Byte.space :: collapse u := by
  refine ⟨(Collapsing.hasRead_ofText t).written, ⟨words t, fun _ => hasWords_iff, rfl⟩,
    collapse_collapse t, collapse_trim t, fun blanks u hne hblanks => collapse_eq_of_words ?_⟩
  exact (words_append_append_eq_iff hne).mpr (words_eq_nil_iff.mpr hblanks)

theorem blanks_collapse_to_single_spaces_mugs :
    utf8 "\n " ≠ [] ∧ (∀ b ∈ utf8 "\n ", Byte.isBlank b) ∧
    (Collapsing.ofText (utf8 " red\t mugs ")).written = utf8 "red mugs" ∧
    HasWords (utf8 " red\t mugs ") [utf8 "red", utf8 "mugs"] ∧
    collapse (utf8 " red\t mugs " ++ (utf8 "\n " ++ utf8 "of  clay")) =
      utf8 "red mugs" ++ Byte.space :: utf8 "of clay" := by
  have hne : utf8 "\n " ≠ [] := by decide +kernel
  have hblanks : ∀ b ∈ utf8 "\n ", Byte.isBlank b := by decide +kernel
  have hmugs : collapse (utf8 " red\t mugs ") = utf8 "red mugs" := by decide +kernel
  have hclay : collapse (utf8 "of  clay") = utf8 "of clay" := by decide +kernel
  obtain ⟨hpass, -, -, -, happend⟩ := blanks_collapse_to_single_spaces (utf8 " red\t mugs ")
  refine ⟨hne, hblanks, hpass.trans hmugs, hasWords_iff.mpr (by decide +kernel), ?_⟩
  rw [happend _ _ hne hblanks, hmugs, hclay]
  decide +kernel

end CatalogEdit.Text
