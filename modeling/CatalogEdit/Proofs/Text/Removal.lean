import CatalogEdit.Proofs.Text.Case
import CatalogEdit.Proofs.Text.Run
import CatalogEdit.Proofs.Text.Scan

/-!
# Removing words one after the other

Removal reads a text from left to right and knows of what it has read only the last byte of the
result. A word made of word bytes is removed wherever it is a run of its own, so that one removal is
one pass over the runs, and a sequence of removals is a single pass for the words of all of them.

## Main definitions

* `Text.standsAtHead` — whether a word stands at the head of the rest of a text.
* `Text.removeFrom` — the removal from the rest of a text, given the byte before it.

## Main statements

* `Text.removeFrom_of_standsAtHead`, `Text.removeFrom_cons` — one step of the removal.
* `Text.removeWord_eq_blankRuns` — removing one word.
* `Text.removeWords_eq_blankRuns` — removing one word after the other.
-/

namespace CatalogEdit.Text

open Byte (IgnoresCase)

/-! ## One step -/

/-- Whether `word` stands at the head of the rest `t` of a text, with a word edge on either side. -/
def standsAtHead (word : Text) (before : Option UInt8) (t : Text) : Bool :=
  isWordEdge before && startsWith word t && isWordEdge (t.drop word.length).head?

/-- The rest `t` of a text without `word`; `before` is the last byte of what was read so far. -/
def removeFrom (word : Text) (before : Option UInt8) (t : Text) : Text :=
  (piecesFrom (standalone word) 0 before t).map fun
    | .byte b => b
    | .found _ => Byte.space

theorem removeWord_eq_removeFrom (word t : Text) : removeWord word t = removeFrom word none t := by
  rw [removeWord, blankOut, pieces, removeFrom]
  refine List.map_congr_left fun piece _ => ?_
  cases piece <;> rfl

theorem standalone_eq (word : Text) (before : Option UInt8) (t : Text) :
    standalone word before t =
      if standsAtHead word before t then some ((), word.length) else none := rfl

variable {word : Text} {before : Option UInt8}

@[simp] theorem removeFrom_nil (word : Text) (before : Option UInt8) :
    removeFrom word before [] = [] := rfl

theorem startsWith_iff {t : Text} :
    startsWith word t ↔ ∃ found rest, t = found ++ rest ∧ lower found = lower word := by
  rw [startsWith, beq_iff_eq]
  constructor
  · exact fun h => ⟨_, _, (List.take_append_drop word.length t).symm, h⟩
  · rintro ⟨found, rest, rfl, h⟩
    have hlength := length_eq_of_lower_eq h
    rwa [← hlength, List.take_left]

theorem standsAtHead_iff {t : Text} :
    standsAtHead word before t ↔ isWordEdge before ∧
      ∃ found rest, t = found ++ rest ∧ lower found = lower word ∧ isWordEdge rest.head? := by
  simp only [standsAtHead, Bool.and_eq_true, startsWith_iff]
  constructor
  · rintro ⟨⟨hbefore, found, rest, rfl, hfound⟩, hafter⟩
    have hlength := length_eq_of_lower_eq hfound
    rw [← hlength, List.drop_left] at hafter
    exact ⟨hbefore, found, rest, rfl, hfound, hafter⟩
  · rintro ⟨hbefore, found, rest, rfl, hfound, hafter⟩
    have hlength := length_eq_of_lower_eq hfound
    refine ⟨⟨hbefore, found, rest, rfl, hfound⟩, ?_⟩
    rwa [← hlength, List.drop_left]

/-- A word that stands at the head gives way to a space. -/
theorem removeFrom_of_standsAtHead {t : Text} (hne : word ≠ []) (h : standsAtHead word before t) :
    removeFrom word before t =
      Byte.space :: removeFrom word (some Byte.space) (t.drop word.length) := by
  obtain ⟨n, hn⟩ : ∃ n, word.length = n + 1 :=
    Nat.exists_eq_succ_of_ne_zero (mt List.length_eq_zero_iff.mp hne)
  cases t with
  | nil => simp [standsAtHead, startsWith, hne, lower] at h
  | cons b rest =>
    have hfound : standalone word before (b :: rest) = some ((), n + 1) := by
      rw [standalone_eq, if_pos h, hn]
    simp only [removeFrom, piecesFrom_cons, hfound, List.map_cons, hn, List.drop_succ_cons]

/-- A byte at which no word begins is kept. -/
theorem removeFrom_cons {b : UInt8} {rest : Text}
    (h : standsAtHead word before (b :: rest) = false) :
    removeFrom word before (b :: rest) = b :: removeFrom word (some b) rest := by
  have hnone : standalone word before (b :: rest) = none := by
    rw [standalone_eq, h, if_neg Bool.false_ne_true]
  simp only [removeFrom, piecesFrom_cons, hnone, List.map_cons]

theorem standsAtHead_eq_false_of_not_isWordEdge (h : isWordEdge before = false) (t : Text) :
    standsAtHead word before t = false := by
  simp [standsAtHead, h]

/-! ## Whole words -/

/-- Texts that differ in case consist of bytes of the same classes. -/
theorem forall_mem_of_lower_eq {inClass : UInt8 → Bool} (hclass : IgnoresCase inClass) {t u : Text}
    (h : lower t = lower u) (hu : ∀ b ∈ u, inClass b) : ∀ b ∈ t, inClass b := by
  intro b hb
  have hmem : Byte.lower b ∈ lower u := h ▸ List.mem_map_of_mem hb
  obtain ⟨c, hc, heq⟩ := List.mem_map.mp hmem
  rw [← hclass b, ← heq, hclass c]
  exact hu c hc

theorem takeWhile_isWord_append {run rest : Text} (hrun : ∀ b ∈ run, Byte.isWord b)
    (hrest : isWordEdge rest.head?) : (run ++ rest).takeWhile Byte.isWord = run :=
  takeWhile_append_of_head? hrun fun _ => isWord_eq_false_of_isWordEdge hrest

section

variable (hword : ∀ b ∈ word, Byte.isWord b)
include hword

/-- At the head of a run, a word of word bytes stands exactly if it is that run. -/
theorem standsAtHead_run_iff {run rest : Text} (hrun : ∀ b ∈ run, Byte.isWord b)
    (hrest : isWordEdge rest.head?) :
    standsAtHead word before (run ++ rest) ↔ isWordEdge before ∧ lower run = lower word := by
  rw [standsAtHead_iff]
  refine and_congr_right fun _ => ?_
  constructor
  · rintro ⟨found, rest', heq, hfound, hafter⟩
    have hbytes := forall_mem_of_lower_eq Byte.ignoresCase_isWord hfound hword
    have hsame : run = found := by
      rw [← takeWhile_isWord_append hrun hrest, heq, takeWhile_isWord_append hbytes hafter]
    rwa [hsame]
  · exact fun h => ⟨run, rest, rfl, h, hrest⟩

theorem standsAtHead_cons_of_not_isWord (hne : word ≠ []) {b : UInt8} (hb : Byte.isWord b = false)
    (rest : Text) : standsAtHead word before (b :: rest) = false := by
  rw [Bool.eq_false_iff, Ne, standsAtHead_iff]
  rintro ⟨-, found, rest', heq, hfound, -⟩
  have hbytes := forall_mem_of_lower_eq Byte.ignoresCase_isWord hfound hword
  cases found with
  | nil => exact ne_nil_of_lower_eq hfound hne rfl
  | cons c found =>
    obtain ⟨rfl, -⟩ := List.cons.inj heq
    exact absurd (hbytes b List.mem_cons_self) (by simp [hb])

end

/-- Nothing is found within a word. -/
theorem removeFrom_append_of_isWord {run : Text} (hrun : ∀ b ∈ run, Byte.isWord b)
    (hbefore : isWordEdge before = false) (rest : Text) :
    removeFrom word before (run ++ rest) =
      run ++ removeFrom word (run.getLast?.or before) rest := by
  induction run generalizing before with
  | nil => simp
  | cons b run ih =>
    obtain ⟨hb, hrun⟩ := List.forall_mem_cons.mp hrun
    rw [List.cons_append,
      removeFrom_cons (standsAtHead_eq_false_of_not_isWordEdge hbefore _),
      ih hrun (by simpa using hb)]
    cases run <;> simp [List.getLast?_cons]

/-- The removal meets every run at its head: there either no word has been read before, or none
goes on. -/
theorem removeFrom_eq_blankRuns (hne : word ≠ []) (hword : ∀ b ∈ word, Byte.isWord b) (t : Text)
    (h : isWordEdge before ∨ isWordEdge t.head?) :
    removeFrom word before t = blankRuns (fun run => lower run == lower word) t := by
  induction t using run_induction generalizing before with
  | nil => rfl
  | other b rest hb ih =>
    rw [removeFrom_cons (standsAtHead_cons_of_not_isWord hword hne hb rest), blankRuns_cons _ hb,
      ih (.inl (by simpa using hb))]
  | word run rest hrunne hrun hrest ih =>
    rw [blankRuns_append_of_isWord _ hrunne hrun hrest]
    have hbefore : isWordEdge before := by
      refine h.resolve_right fun hhead => ?_
      cases run with
      | nil => contradiction
      | cons b run => simp [hrun b List.mem_cons_self] at hhead
    by_cases hsame : lower run = lower word
    · have hstands := (standsAtHead_run_iff hword hrun hrest).mpr ⟨hbefore, hsame⟩
      have hlength := length_eq_of_lower_eq hsame
      rw [removeFrom_of_standsAtHead hne hstands, ← hlength, List.drop_left, ih (.inl rfl),
        if_pos (by simpa using hsame), List.singleton_append]
    · rw [if_neg (by simpa using hsame)]
      have hstands : standsAtHead word before (run ++ rest) = false :=
        Bool.eq_false_iff.mpr fun h => hsame ((standsAtHead_run_iff hword hrun hrest).mp h).2
      cases run with
      | nil => contradiction
      | cons b run =>
        obtain ⟨hb, hrun⟩ := List.forall_mem_cons.mp hrun
        rw [List.cons_append] at hstands ⊢
        rw [removeFrom_cons hstands, removeFrom_append_of_isWord hrun (by simpa using hb),
          ih (.inr hrest), List.cons_append]

/-- Removing a word of word bytes is one pass over the runs of the text. -/
theorem removeWord_eq_blankRuns (hne : word ≠ []) (hword : ∀ b ∈ word, Byte.isWord b) (t : Text) :
    removeWord word t = blankRuns (fun run => lower run == lower word) t := by
  rw [removeWord_eq_removeFrom]
  exact removeFrom_eq_blankRuns hne hword t (.inl rfl)

/-- Removing words of word bytes one after the other is one pass for all of them. -/
theorem removeWords_eq_blankRuns {words : List Text}
    (h : ∀ word ∈ words, word ≠ [] ∧ ∀ b ∈ word, Byte.isWord b) (t : Text) :
    removeWords words t =
      blankRuns (fun run => words.any fun word => lower run == lower word) t := by
  induction words generalizing t with
  | nil => exact (blankRuns_false t).symm
  | cons word words ih =>
    obtain ⟨⟨hne, hword⟩, hwords⟩ := List.forall_mem_cons.mp h
    rw [removeWords, List.foldl_cons, removeWord_eq_blankRuns hne hword, ← removeWords,
      ih hwords, blankRuns_blankRuns]
    rfl

end CatalogEdit.Text
