import CatalogEdit.Text.Word
import Mathlib.Data.List.SplitBy

/-!
# Runs of word bytes

A text is a row of runs: every longest stretch of word bytes, and every other byte by itself. Words
are told apart by the runs they are, so taking words out of a text is one pass over its runs.

## Main definitions

* `Text.runs` — the runs of a text, in order.
* `Text.wordRuns` — those of them that are words.
* `Text.blankRuns` — the text with one space for every word of a given kind.

## Main statements

* `Text.run_induction` — induction on a text, run by run.
* `Text.wordRuns_blankRuns` — the words that stay are the words of no such kind.
* `Text.blankRuns_blankRuns` — two passes are one pass.
-/

namespace CatalogEdit.Text

/-! ## Edges -/

@[simp] theorem isWordEdge_none : isWordEdge none = true := rfl

@[simp] theorem isWordEdge_some (b : UInt8) : isWordEdge (some b) = !Byte.isWord b := rfl

theorem isWord_eq_false_of_isWordEdge {neighbour : Option UInt8} (h : isWordEdge neighbour)
    {b : UInt8} (hb : b ∈ neighbour) : Byte.isWord b = false := by
  obtain rfl := Option.mem_def.mp hb
  simpa using h

/-! ## Runs -/

/-- The longest stretches of word bytes, and every other byte by itself. -/
def runs (t : Text) : List Text := t.splitBy fun a b => Byte.isWord a && Byte.isWord b

/-- Whether a run is made of word bytes. -/
def isWordRun (run : Text) : Bool := run.head?.any Byte.isWord

/-- The words of a text. -/
def wordRuns (t : Text) : List Text := (runs t).filter isWordRun

@[simp] theorem flatten_runs (t : Text) : (runs t).flatten = t := List.flatten_splitBy _ t

@[simp] theorem runs_nil : runs [] = [] := rfl

@[simp] theorem wordRuns_nil : wordRuns [] = [] := rfl

/-- A text is cut at a place where no word goes on. -/
theorem runs_append {t u : Text} (h : isWordEdge t.getLast? ∨ isWordEdge u.head?) :
    runs (t ++ u) = runs t ++ runs u := by
  refine List.splitBy_append fun a ha b hb => ?_
  rcases h with ht | hu
  · simp [isWord_eq_false_of_isWordEdge ht ha]
  · simp [isWord_eq_false_of_isWordEdge hu hb]

theorem runs_cons {b : UInt8} (hb : Byte.isWord b = false) (t : Text) :
    runs (b :: t) = [b] :: runs t :=
  runs_append (t := [b]) (.inl (by simpa using hb))

theorem runs_append_of_isWord {run rest : Text} (hne : run ≠ []) (hrun : ∀ b ∈ run, Byte.isWord b)
    (hrest : isWordEdge rest.head?) : runs (run ++ rest) = run :: runs rest := by
  have hchain : run.Pairwise fun a b => (Byte.isWord a && Byte.isWord b) = true :=
    List.pairwise_of_forall_mem_list fun a ha b hb => by rw [hrun a ha, hrun b hb, Bool.and_self]
  rw [runs_append (.inr hrest)]
  exact congrArg (· ++ runs rest) (List.splitBy_of_isChain hne hchain.isChain)

theorem isWordRun_of_isWord {run : Text} (hne : run ≠ []) (hrun : ∀ b ∈ run, Byte.isWord b) :
    isWordRun run := by
  cases run with
  | nil => contradiction
  | cons b rest => exact hrun b List.mem_cons_self

/-- To prove a statement of every text, prove it of the empty text and carry it over a byte that
belongs to no word, and over a whole word. -/
@[elab_as_elim]
theorem run_induction {motive : Text → Prop} (nil : motive [])
    (other : ∀ b rest, Byte.isWord b = false → motive rest → motive (b :: rest))
    (word : ∀ run rest, run ≠ [] → (∀ b ∈ run, Byte.isWord b) → isWordEdge rest.head? →
      motive rest → motive (run ++ rest)) (t : Text) : motive t := by
  induction hlength : t.length using Nat.strong_induction_on generalizing t with
  | _ n ih =>
    match t with
    | [] => exact nil
    | b :: rest =>
      cases hb : Byte.isWord b with
      | false => exact other b rest hb (ih rest.length (by simp [← hlength]) rest rfl)
      | true =>
        have hcut : (b :: rest).takeWhile Byte.isWord ++ (b :: rest).dropWhile Byte.isWord =
            b :: rest := List.takeWhile_append_dropWhile
        have hshort := (List.dropWhile_suffix Byte.isWord (l := rest)).length_le
        rw [← hcut]
        refine word _ _ (by simp [hb]) (List.all_eq_true.mp List.all_takeWhile) ?_
          (ih _ ?_ _ rfl)
        · have hhead := List.head?_dropWhile_not Byte.isWord (b :: rest)
          cases hrest : ((b :: rest).dropWhile Byte.isWord).head? with
          | none => rfl
          | some c => simpa [hrest] using hhead
        · simp only [List.dropWhile_cons, hb, if_true, ← hlength, List.length_cons]
          omega

/-! ## Words taken out -/

/-- A space for the run, if it is a word of the given kind. -/
def blankRun (isTaken : Text → Bool) (run : Text) : Text :=
  if isWordRun run && isTaken run then [Byte.space] else run

/-- One space for every word of the given kind; all other bytes stay. -/
def blankRuns (isTaken : Text → Bool) (t : Text) : Text := (runs t).flatMap (blankRun isTaken)

section

variable (isTaken : Text → Bool)

@[simp] theorem blankRuns_nil : blankRuns isTaken [] = [] := rfl

theorem blankRuns_cons {b : UInt8} (hb : Byte.isWord b = false) (t : Text) :
    blankRuns isTaken (b :: t) = b :: blankRuns isTaken t := by
  have hrun : blankRun isTaken [b] = [b] := by simp [blankRun, isWordRun, hb]
  rw [blankRuns, runs_cons hb, List.flatMap_cons, hrun]
  rfl

theorem blankRuns_append_of_isWord {run rest : Text} (hne : run ≠ [])
    (hrun : ∀ b ∈ run, Byte.isWord b) (hrest : isWordEdge rest.head?) :
    blankRuns isTaken (run ++ rest) =
      (if isTaken run then [Byte.space] else run) ++ blankRuns isTaken rest := by
  rw [blankRuns, runs_append_of_isWord hne hrun hrest, List.flatMap_cons, blankRun,
    isWordRun_of_isWord hne hrun, Bool.true_and, blankRuns]

theorem blankRuns_append {t u : Text} (h : isWordEdge t.getLast? ∨ isWordEdge u.head?) :
    blankRuns isTaken (t ++ u) = blankRuns isTaken t ++ blankRuns isTaken u := by
  rw [blankRuns, runs_append h, List.flatMap_append, blankRuns, blankRuns]

@[simp] theorem blankRuns_eq_nil_iff {t : Text} : blankRuns isTaken t = [] ↔ t = [] := by
  induction t using run_induction with
  | nil => simp
  | other b rest hb ih => simp [blankRuns_cons isTaken hb]
  | word run rest hne hrun hrest ih =>
    rw [blankRuns_append_of_isWord isTaken hne hrun hrest]
    split <;> simp [hne]

/-- Bytes that stand in no word of the given kind stay. -/
theorem filter_blankRuns {inClass : UInt8 → Bool} (hspace : inClass Byte.space = false)
    (h : ∀ run, isTaken run → ∀ b ∈ run, inClass b = false) (t : Text) :
    (blankRuns isTaken t).filter inClass = t.filter inClass := by
  induction t using run_induction with
  | nil => simp
  | other b rest hb ih => rw [blankRuns_cons isTaken hb, List.filter_cons, List.filter_cons, ih]
  | word run rest hne hrun hrest ih =>
    rw [blankRuns_append_of_isWord isTaken hne hrun hrest, List.filter_append, List.filter_append,
      ih]
    split
    next htaken =>
      have hrunNil : run.filter inClass = [] :=
        List.filter_eq_nil_iff.mpr fun b hb => by simp [h run htaken b hb]
      simp [hspace, hrunNil]
    next => rfl

theorem isWordEdge_head?_blankRuns {t : Text} (h : isWordEdge t.head?) :
    isWordEdge (blankRuns isTaken t).head? := by
  cases t with
  | nil => rfl
  | cons b rest =>
    have hb : Byte.isWord b = false := isWord_eq_false_of_isWordEdge h rfl
    rw [blankRuns_cons isTaken hb]
    exact h

/-- A space separates no words that were not separate before, so the runs of the text are treated
one by one. -/
theorem runs_blankRuns (t : Text) :
    runs (blankRuns isTaken t) = (runs t).map (blankRun isTaken) := by
  induction t using run_induction with
  | nil => rfl
  | other b rest hb ih =>
    have hrun : blankRun isTaken [b] = [b] := by simp [blankRun, isWordRun, hb]
    rw [blankRuns_cons isTaken hb, runs_cons hb, runs_cons hb, List.map_cons, hrun, ih]
  | word run rest hne hrun hrest ih =>
    have hedge := isWordEdge_head?_blankRuns isTaken hrest
    rw [blankRuns_append_of_isWord isTaken hne hrun hrest, runs_append_of_isWord hne hrun hrest,
      List.map_cons, blankRun, isWordRun_of_isWord hne hrun, Bool.true_and]
    split
    next => rw [List.singleton_append, runs_cons (by decide), ih]
    next => rw [runs_append_of_isWord hne hrun hedge, ih]

/-- The words that stay are the words of no such kind, in the same order. -/
theorem wordRuns_blankRuns (t : Text) :
    wordRuns (blankRuns isTaken t) = (wordRuns t).filter fun run => !isTaken run := by
  rw [wordRuns, runs_blankRuns, wordRuns]
  induction runs t with
  | nil => rfl
  | cons run rest ih =>
    have hspace : isWordRun [Byte.space] = false := by decide
    rw [List.map_cons, List.filter_cons, List.filter_cons, ih]
    cases hword : isWordRun run <;> cases htaken : isTaken run <;>
      simp [blankRun, hword, htaken, hspace]

/-- Only what is said of words counts. -/
theorem blankRuns_congr {isTaken isTaken' : Text → Bool}
    (h : ∀ run, isWordRun run → isTaken run = isTaken' run) (t : Text) :
    blankRuns isTaken t = blankRuns isTaken' t := by
  have hrun : ∀ run, blankRun isTaken run = blankRun isTaken' run := by
    intro run
    cases hword : isWordRun run with
    | false => simp [blankRun, hword]
    | true => simp [blankRun, hword, h run hword]
  rw [blankRuns, funext hrun, blankRuns]

theorem blankRuns_false (t : Text) : blankRuns (fun _ => false) t = t := by
  have hrun : ∀ run, blankRun (fun _ => false) run = run := fun run => by simp [blankRun]
  simp only [blankRuns, funext hrun, List.flatMap_id', flatten_runs]

/-- A second pass takes out what it would have taken out of the text itself. -/
theorem blankRuns_blankRuns (isTakenLater : Text → Bool) (t : Text) :
    blankRuns isTakenLater (blankRuns isTaken t) =
      blankRuns (fun run => isTaken run || isTakenLater run) t := by
  have hspace : isWordRun [Byte.space] = false := by decide
  have hrun : ∀ run, blankRun isTakenLater (blankRun isTaken run) =
      blankRun (fun run => isTaken run || isTakenLater run) run := by
    intro run
    cases hword : isWordRun run <;> cases htaken : isTaken run <;>
      simp [blankRun, hword, htaken, hspace]
  rw [blankRuns, runs_blankRuns, List.flatMap_map, blankRuns]
  exact congrArg (List.flatMap · (runs t)) (funext hrun)

end

end CatalogEdit.Text
