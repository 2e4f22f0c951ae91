import CatalogEdit.Proofs.Text.Case
import CatalogEdit.Proofs.Text.Run

/-!
# Blanks between words

Blanks cut a text into its words; here a word is whatever stands between blanks. What is said about
a text word by word is not changed when its blanks are collapsed.

## Main statements

* `Text.words_append_cons` — a text is cut at every blank.
* `Text.cut_induction`, `Text.blank_induction` — induction on a text, from one byte of a class to
  the next.
* `Text.words_append_append_eq_iff` — a part of a text that leaves the words as they are.
* `Text.words_collapse` — collapsing the blanks keeps the words.
* `Text.collapse_eq_of_words` — a text that is cut between two words is collapsed part by part.
* `Text.wordRuns_collapse` — and it keeps the runs of word bytes.
-/

namespace CatalogEdit.Text

theorem isWord_of_isBlank {b : UInt8} : Byte.isBlank b → Byte.isWord b = false := by grind

/-! ## Words -/

theorem words_append_cons {b : UInt8} (hb : Byte.isBlank b) (t u : Text) :
    words (t ++ b :: u) = words t ++ words u := by
  rw [words, List.splitOnP_append_cons t u hb, List.filter_append, words, words]

theorem words_of_forall_not_isBlank {t : Text} (h : ∀ b ∈ t, Byte.isBlank b = false) :
    words t = if t.isEmpty then [] else [t] := by
  rw [words, List.splitOnP_eq_singleton h]
  cases t <;> rfl

theorem words_cons_of_isBlank {b : UInt8} (hb : Byte.isBlank b) (t : Text) :
    words (b :: t) = words t :=
  words_append_cons hb [] t

/-- To prove a statement of every text, prove it of the texts without a byte at which texts are cut,
and of what stands on either side of such a byte. -/
@[elab_as_elim]
theorem cut_induction (isCut : UInt8 → Bool) {motive : Text → Prop}
    (plain : ∀ t, (∀ b ∈ t, isCut b = false) → motive t)
    (cut : ∀ t b u, isCut b → motive t → motive u → motive (t ++ b :: u)) (t : Text) :
    motive t := by
  suffices h : ∀ head, (∀ b ∈ head, isCut b = false) → motive (head ++ t) from h [] (by simp)
  induction t with
  | nil => exact fun head hhead => plain _ (by simpa using hhead)
  | cons b rest ih =>
    intro head hhead
    cases hb : isCut b with
    | true => exact cut head b rest hb (plain head hhead) (ih [] (by simp))
    | false =>
      rw [List.append_cons]
      refine ih (head ++ [b]) fun c hc => ?_
      rcases List.mem_append.mp hc with hc | hc
      · exact hhead c hc
      · rwa [List.mem_singleton.mp hc]

/-- Texts are cut at their blanks. -/
@[elab_as_elim]
theorem blank_induction {motive : Text → Prop}
    (plain : ∀ t, (∀ b ∈ t, Byte.isBlank b = false) → motive t)
    (blank : ∀ t b u, Byte.isBlank b → motive t → motive u → motive (t ++ b :: u)) (t : Text) :
    motive t :=
  cut_induction Byte.isBlank plain blank t

/-- A word is not empty, and it holds no blank. -/
structure IsBlankFree (word : Text) : Prop where
  ne_nil : word ≠ []
  isBlank : ∀ b ∈ word, Byte.isBlank b = false

theorem IsBlankFree.words_eq {word : Text} (h : IsBlankFree word) : words word = [word] := by
  simp [words_of_forall_not_isBlank h.isBlank, h.ne_nil]

theorem words_append_of_head? {run tail : Text} (hrun : IsBlankFree run)
    (htail : ∀ b ∈ tail.head?, Byte.isBlank b) : words (run ++ tail) = run :: words tail := by
  cases tail with
  | nil => rw [List.append_nil, hrun.words_eq]; rfl
  | cons b tail =>
    have hb := htail b rfl
    rw [words_append_cons hb, hrun.words_eq, words_cons_of_isBlank hb, List.singleton_append]

theorem isBlankFree_of_mem_words {t word : Text} (h : word ∈ words t) : IsBlankFree word := by
  induction t using blank_induction with
  | plain t ht =>
    rw [words_of_forall_not_isBlank ht] at h
    split at h
    next => exact absurd h List.not_mem_nil
    next hne =>
      obtain rfl := List.mem_singleton.mp h
      exact ⟨by simpa using hne, ht⟩
  | blank t b u hb iht ihu =>
    rw [words_append_cons hb] at h
    exact (List.mem_append.mp h).elim iht ihu

/-- The words of a text are its bytes without the blanks. -/
theorem flatten_words (t : Text) : (words t).flatten = t.filter fun b => !Byte.isBlank b := by
  induction t using blank_induction with
  | plain t ht =>
    have hkeep : (t.filter fun b => !Byte.isBlank b) = t :=
      List.filter_eq_self.mpr fun b hb => by simp [ht b hb]
    rw [words_of_forall_not_isBlank ht, hkeep]
    cases t <;> simp
  | blank t b u hb iht ihu =>
    rw [words_append_cons hb, List.flatten_append, iht, ihu, List.filter_append,
      List.filter_cons_of_neg (by simp [hb])]

theorem words_eq_nil_iff {t : Text} : words t = [] ↔ ∀ b ∈ t, Byte.isBlank b := by
  have hflatten : words t = [] ↔ (words t).flatten = [] := by
    rw [List.flatten_eq_nil_iff]
    constructor
    · simp +contextual
    · exact fun h => List.eq_nil_iff_forall_not_mem.mpr fun word hword =>
        (isBlankFree_of_mem_words hword).ne_nil (h word hword)
  rw [hflatten, flatten_words, List.filter_eq_nil_iff]
  simp

theorem words_blanks_append {blanks : Text} (h : ∀ b ∈ blanks, Byte.isBlank b) (t : Text) :
    words (blanks ++ t) = words t := by
  induction blanks with
  | nil => rfl
  | cons b blanks ih =>
    obtain ⟨hb, hblanks⟩ := List.forall_mem_cons.mp h
    rw [← ih hblanks]
    exact words_append_cons hb [] (blanks ++ t)

/-- What stands between two texts adds no word and joins none exactly if it is blank. -/
theorem words_append_append_eq_iff {t part u : Text} (hne : part ≠ []) :
    words (t ++ (part ++ u)) = words t ++ words u ↔ words part = [] := by
  rw [words_eq_nil_iff]
  constructor
  · intro h
    -- Not a byte of it may be left in any word.
    have hlength := congrArg (fun ws => ws.flatten.length) h
    simp only [List.flatten_append, flatten_words, List.filter_append,
      List.length_append] at hlength
    have hnil : (part.filter fun b => !Byte.isBlank b) = [] :=
      List.eq_nil_of_length_eq_zero (by omega)
    simpa using hnil
  · intro h
    cases part with
    | nil => contradiction
    | cons b part =>
      obtain ⟨hb, hpart⟩ := List.forall_mem_cons.mp h
      rw [List.cons_append, words_append_cons hb, words_blanks_append hpart]

/-! ## Collapsed blanks -/

theorem words_intercalate {ws : List Text} (h : ∀ w ∈ ws, IsBlankFree w) :
    words ([Byte.space].intercalate ws) = ws := by
  induction ws with
  | nil => rfl
  | cons w ws ih =>
    obtain ⟨hw, hws⟩ := List.forall_mem_cons.mp h
    cases ws with
    | nil => simpa using hw.words_eq
    | cons w' ws =>
      rw [List.intercalate_cons_cons, List.append_assoc, List.singleton_append,
        words_append_cons (by decide), hw.words_eq, ih hws, List.singleton_append]

theorem words_collapse (t : Text) : words (collapse t) = words t :=
  words_intercalate fun _ => isBlankFree_of_mem_words

theorem collapse_eq_iff {t u : Text} : collapse t = collapse u ↔ words t = words u := by
  constructor
  · intro h
    rw [← words_collapse, h, words_collapse]
  · intro h
    rw [collapse, h, collapse]

theorem collapse_eq_nil_iff {t : Text} : collapse t = [] ↔ words t = [] :=
  collapse_eq_iff (u := [])

theorem collapse_ne_nil_of_mem {b : UInt8} {t : Text} (hmem : b ∈ t) (hb : Byte.isBlank b = false) :
    collapse t ≠ [] := by
  intro hnil
  rw [words_eq_nil_iff.mp (collapse_eq_nil_iff.mp hnil) b hmem] at hb
  contradiction

theorem collapse_of_forall_not_isBlank {t : Text} (h : ∀ b ∈ t, Byte.isBlank b = false) :
    collapse t = t := by
  rw [collapse, words_of_forall_not_isBlank h]
  cases t <;> simp

theorem collapse_singleton {b : UInt8} (hb : Byte.isBlank b = false) : collapse [b] = [b] :=
  collapse_of_forall_not_isBlank (by simpa using hb)

theorem intercalate_space_append (ws ws' : List Text) :
    [Byte.space].intercalate (ws ++ ws') =
      if ws = [] then [Byte.space].intercalate ws'
      else if ws' = [] then [Byte.space].intercalate ws
      else [Byte.space].intercalate ws ++ Byte.space :: [Byte.space].intercalate ws' := by
  induction ws with
  | nil => simp
  | cons w ws ih =>
    by_cases hws' : ws' = []
    · simp [hws']
    by_cases hws : ws = []
    · simp [hws, hws', List.intercalate_cons_of_ne_nil]
    · have hne : ws ++ ws' ≠ [] := by simp [hws]
      rw [if_neg hws, if_neg hws'] at ih
      rw [List.cons_append, List.intercalate_cons_of_ne_nil hne, ih,
        List.intercalate_cons_of_ne_nil hws, if_neg (List.cons_ne_nil w ws), if_neg hws']
      simp only [List.append_assoc]

/-- If the words of a text are those of one text and then those of another, a space stands between
the two once they are collapsed, unless one of them has no words. -/
theorem collapse_eq_of_words {t u v : Text} (h : words v = words t ++ words u) :
    collapse v =
      if collapse t = [] then collapse u
      else if collapse u = [] then collapse t
      else collapse t ++ Byte.space :: collapse u := by
  simp only [collapse_eq_nil_iff]
  rw [collapse, h, intercalate_space_append]
  rfl

/-- A byte before a word belongs to it. -/
theorem collapse_cons_of_head? {b : UInt8} {t : Text} (hb : Byte.isBlank b = false)
    (ht : ∃ c ∈ t.head?, Byte.isBlank c = false) : collapse (b :: t) = b :: collapse t := by
  induction t using blank_induction with
  | plain t hplain =>
    rw [collapse_of_forall_not_isBlank hplain,
      collapse_of_forall_not_isBlank (List.forall_mem_cons.mpr ⟨hb, hplain⟩)]
  | blank t c u hc iht _ =>
    obtain ⟨d, hd, hblank⟩ := ht
    -- The text before the blank begins with the word.
    have hhead : d ∈ t.head? := by
      cases t with
      | nil =>
        obtain rfl : c = d := by simpa using hd
        simp [hc] at hblank
      | cons e t => exact hd
    have hnil : collapse t ≠ [] := collapse_ne_nil_of_mem (List.mem_of_mem_head? hhead) hblank
    rw [← List.cons_append, collapse_eq_of_words (words_append_cons hc (b :: t) u),
      collapse_eq_of_words (words_append_cons hc t u), iht ⟨d, hhead, hblank⟩]
    by_cases hu : collapse u = [] <;> simp [hu, hnil]

theorem wordRuns_append_cons {b : UInt8} (hb : Byte.isWord b = false) (t u : Text) :
    wordRuns (t ++ b :: u) = wordRuns t ++ wordRuns u := by
  have hrun : isWordRun [b] = false := by simp [isWordRun, hb]
  rw [wordRuns, runs_append (.inr (by simp [hb])), runs_cons hb, List.filter_append,
    List.filter_cons_of_neg (by simp [hrun]), wordRuns, wordRuns]

/-- The runs of word bytes are found word by word. -/
theorem wordRuns_eq_flatMap_words (t : Text) : wordRuns t = (words t).flatMap wordRuns := by
  induction t using blank_induction with
  | plain t ht =>
    rw [words_of_forall_not_isBlank ht]
    cases t <;> simp
  | blank t b u hb iht ihu =>
    rw [wordRuns_append_cons (isWord_of_isBlank hb), words_append_cons hb, List.flatMap_append,
      iht, ihu]

theorem wordRuns_collapse (t : Text) : wordRuns (collapse t) = wordRuns t := by
  rw [wordRuns_eq_flatMap_words, words_collapse, ← wordRuns_eq_flatMap_words]

/-! ## Words taken out of a part -/

section

variable {isTaken : Text → Bool} (htaken : ∀ run, isTaken run → ∀ b ∈ run, b < 0x80)
include htaken

/-- If only words in ASCII are taken out, the bytes of all other characters stay. -/
theorem filter_flatten_words_blankRuns (t : Text) :
    (words (blankRuns isTaken t)).flatten.filter (fun b => !decide (b < 0x80)) =
      t.filter fun b => !decide (b < 0x80) := by
  have hblank : ∀ b : UInt8, (!decide (b < 0x80) && !Byte.isBlank b) = !decide (b < 0x80) := by
    grind
  rw [flatten_words, List.filter_filter, funext hblank]
  exact filter_blankRuns isTaken (by decide) (fun run hrun b hb => by simp [htaken run hrun b hb]) t

/-- A part of a text that does not touch a word in ASCII gives way to a space, and the words that
are left stay the same, exactly if no word is left of the part. -/
theorem words_blankRuns_append_eq_iff {front part back : Text} (hne : part ≠ [])
    (hhead : ∀ b ∈ part.head?, b < 0x80 → Byte.isWord b = false)
    (hlast : back = [] ∨ ∀ b ∈ part.getLast?, b < 0x80 → Byte.isWord b = false) :
    words (blankRuns isTaken (front ++ (part ++ back))) =
        words (blankRuns isTaken (front ++ Byte.space :: back)) ↔
      words (blankRuns isTaken part) = [] := by
  by_cases hascii : ∀ b ∈ part, b < 0x80
  · -- The part is cut off at word edges, so it is treated by itself.
    have hheadEdge : isWordEdge (part ++ back).head? := by
      cases part with
      | nil => contradiction
      | cons b part => simpa using hhead b rfl (hascii b List.mem_cons_self)
    have hlastEdge : isWordEdge part.getLast? ∨ isWordEdge back.head? := by
      rcases hlast with rfl | hlast
      · exact .inr rfl
      · refine .inl ?_
        rw [List.getLast?_eq_some_getLast hne]
        simpa using hlast _ (List.getLast?_eq_some_getLast hne) (hascii _ (List.getLast_mem hne))
    have hspaceEdge : isWordEdge (Byte.space :: back).head? := rfl
    rw [blankRuns_append isTaken (.inr hheadEdge), blankRuns_append isTaken hlastEdge,
      blankRuns_append isTaken (.inr hspaceEdge), blankRuns_cons isTaken (by decide),
      words_append_cons (by decide)]
    exact words_append_append_eq_iff (by simpa using hne)
  · -- A character outside ASCII is left of the part, so its words are seen.
    have hfilter := filter_flatten_words_blankRuns htaken
    have hpart : (part.filter fun b => !decide (b < 0x80)) ≠ [] := by
      simpa [List.filter_eq_nil_iff] using hascii
    have hspace : ((Byte.space :: back).filter fun b => !decide (b < 0x80)) =
        back.filter fun b => !decide (b < 0x80) :=
      List.filter_cons_of_neg (by decide)
    constructor
    · intro h
      have hlength := congrArg
        (fun ws => (ws.flatten.filter fun b => !decide (b < 0x80)).length) h
      simp only [hfilter, List.filter_append, List.length_append, hspace] at hlength
      exact absurd (List.eq_nil_of_length_eq_zero (by omega)) hpart
    · intro h
      rw [← hfilter, h] at hpart
      exact absurd rfl hpart

end

end CatalogEdit.Text
