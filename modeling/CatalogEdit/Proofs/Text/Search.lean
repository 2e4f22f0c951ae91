import CatalogEdit.Proofs.Text.Scan

/-!
# What a search finds

A search gives the answer of the leftmost place that has one, to a recogniser that may look at the
byte before. A recogniser that does not is described by what it sees behind each part of the text.

## Main definitions

* `Text.IsAnswer` — what a recogniser that does not look back sees behind a part of the text.

## Main statements

* `Text.exists_of_search` — an answer is given at some place of the text.
* `Text.searchFrom_eq_none_iff`, `Text.searchFrom_eq_some_iff` — the answer of any search is the
  leftmost one.
* `Text.search_map` — the leftmost answer is not moved by what is done with it.
* `Text.search_eq_some_iff`, `Text.search_eq_none_iff` — the same for recognisers that do not look
  back.
-/

namespace CatalogEdit.Text

variable {α β : Type} {p : Option UInt8 → Text → Option α}

theorem exists_of_searchFrom {before : Option UInt8} {t : Text} {a : α}
    (h : searchFrom p before t = some a) : ∃ before rest, rest <:+ t ∧ p before rest = some a := by
  induction t generalizing before with
  | nil => contradiction
  | cons b rest ih =>
    simp only [searchFrom] at h
    split at h
    next hp =>
      obtain rfl := Option.some.inj h
      exact ⟨before, b :: rest, List.suffix_rfl, hp⟩
    next =>
      obtain ⟨before', rest', hsuffix, hp⟩ := ih h
      exact ⟨before', rest', hsuffix.trans (List.suffix_cons b rest), hp⟩

theorem exists_of_search {t : Text} {a : α} (h : search p t = some a) :
    ∃ before rest, rest <:+ t ∧ p before rest = some a :=
  exists_of_searchFrom h

theorem searchFrom_map (f : α → β) (before : Option UInt8) (t : Text) :
    searchFrom (fun before rest => (p before rest).map f) before t =
      (searchFrom p before t).map f := by
  induction t generalizing before with
  | nil => rfl
  | cons b rest ih =>
    simp only [searchFrom]
    cases p before (b :: rest) with
    | none => exact ih (some b)
    | some a => rfl

theorem search_map (f : α → β) (t : Text) :
    search (fun before rest => (p before rest).map f) t = (search p t).map f :=
  searchFrom_map f none t

/-! ## Recognisers that look back -/

/-- A search finds nothing exactly if there is nothing to see at any place. -/
theorem searchFrom_eq_none_iff {before : Option UInt8} {t : Text} :
    searchFrom p before t = none ↔
      ∀ pre rest, t = pre ++ rest → rest ≠ [] → p (pre.getLast?.or before) rest = none := by
  induction t generalizing before with
  | nil =>
    refine iff_of_true rfl fun pre rest heq hne => ?_
    exact absurd (List.append_eq_nil_iff.mp heq.symm).2 hne
  | cons b t ih =>
    constructor
    · intro h pre rest heq hne
      simp only [searchFrom] at h
      split at h
      next => contradiction
      next hhead =>
        cases pre with
        | nil =>
          obtain rfl : b :: t = rest := heq
          exact hhead
        | cons c pre =>
          obtain ⟨rfl, rfl⟩ := List.cons.inj heq
          rw [getLast?_cons_or]
          exact ih.mp h pre rest rfl hne
    · intro h
      have hhead : p before (b :: t) = none := h [] (b :: t) rfl (List.cons_ne_nil b t)
      simp only [searchFrom, hhead]
      refine ih.mpr fun pre rest heq hne => ?_
      rw [← getLast?_cons_or]
      exact h (b :: pre) rest (by rw [heq, List.cons_append]) hne

theorem isSome_searchFrom_iff {before : Option UInt8} {t : Text} :
    (searchFrom p before t).isSome ↔
      ∃ pre rest, t = pre ++ rest ∧ rest ≠ [] ∧ (p (pre.getLast?.or before) rest).isSome := by
  simp only [Option.isSome_iff_ne_none, ne_eq, searchFrom_eq_none_iff]
  push Not
  rfl

/-- A search finds what is seen at the leftmost place where there is something to see. -/
theorem searchFrom_eq_some_iff {before : Option UInt8} {t : Text} {a : α} :
    searchFrom p before t = some a ↔
      ∃ pre rest, t = pre ++ rest ∧ rest ≠ [] ∧ p (pre.getLast?.or before) rest = some a ∧
        ∀ x y, t = x ++ y → x.length < pre.length → p (x.getLast?.or before) y = none := by
  induction t generalizing before with
  | nil =>
    refine iff_of_false (by simp [searchFrom]) ?_
    rintro ⟨pre, rest, heq, hne, -⟩
    exact hne (List.append_eq_nil_iff.mp heq.symm).2
  | cons b t ih =>
    cases hhead : p before (b :: t) with
    | some c =>
      simp only [searchFrom, hhead, Option.some.injEq]
      constructor
      · rintro rfl
        exact ⟨[], b :: t, rfl, List.cons_ne_nil b t, hhead, fun _ _ _ hlt => by simp at hlt⟩
      · rintro ⟨pre, rest, heq, -, hanswer, hfirst⟩
        cases pre with
        | nil =>
          obtain rfl : b :: t = rest := heq
          exact Option.some.inj (hhead.symm.trans hanswer)
        | cons d pre =>
          have hnone : p before (b :: t) = none := hfirst [] (b :: t) rfl (by simp)
          simp [hhead] at hnone
    | none =>
      simp only [searchFrom, hhead, ih]
      constructor
      · rintro ⟨pre, rest, rfl, hne, hanswer, hfirst⟩
        refine ⟨b :: pre, rest, rfl, hne, by rwa [getLast?_cons_or], fun x y heq hlt => ?_⟩
        cases x with
        | nil =>
          obtain rfl : b :: (pre ++ rest) = y := heq
          exact hhead
        | cons c x =>
          obtain ⟨rfl, htail⟩ := List.cons.inj heq
          rw [getLast?_cons_or]
          exact hfirst x y htail (Nat.lt_of_succ_lt_succ hlt)
      · rintro ⟨pre, rest, heq, hne, hanswer, hfirst⟩
        cases pre with
        | nil =>
          obtain rfl : b :: t = rest := heq
          simp [hhead] at hanswer
        | cons c pre =>
          obtain ⟨rfl, rfl⟩ := List.cons.inj heq
          rw [getLast?_cons_or] at hanswer
          refine ⟨pre, rest, rfl, hne, hanswer, fun x y htail hlt => ?_⟩
          rw [← getLast?_cons_or]
          exact hfirst (b :: x) y (by rw [htail, List.cons_append]) (Nat.succ_lt_succ hlt)

/-! ## The leftmost place -/

section

variable {answer : Text → Option α} {t : Text}

/-- What a recogniser that does not look back sees behind `pre`. -/
def IsAnswer (answer : Text → Option α) (t pre : Text) (a : α) : Prop :=
  ∃ rest, t = pre ++ rest ∧ answer rest = some a

theorem isAnswer_cons {b : UInt8} {rest pre : Text} {a : α} :
    IsAnswer answer (b :: rest) pre a ↔
      (pre = [] ∧ answer (b :: rest) = some a) ∨ ∃ x, pre = b :: x ∧ IsAnswer answer rest x a := by
  constructor
  · rintro ⟨rest', heq, hanswer⟩
    cases pre with
    | nil =>
      obtain rfl : b :: rest = rest' := heq
      exact .inl ⟨rfl, hanswer⟩
    | cons c pre =>
      obtain ⟨rfl, rfl⟩ := List.cons.inj heq
      exact .inr ⟨pre, rfl, rest', rfl, hanswer⟩
  · rintro (⟨rfl, hanswer⟩ | ⟨x, rfl, rest', rfl, hanswer⟩)
    · exact ⟨b :: rest, rfl, hanswer⟩
    · exact ⟨rest', rfl, hanswer⟩

/-- If nothing is seen at the first `limit` places, every answer comes behind them. -/
theorem IsAnswer.le_length {limit : Nat} (h : ∀ place < limit, answer (t.drop place) = none)
    {pre : Text} {a : α} (hanswer : IsAnswer answer t pre a) : limit ≤ pre.length := by
  obtain ⟨rest, rfl, hrest⟩ := hanswer
  refine Nat.not_lt.mp fun hlt => ?_
  have hnone := h pre.length hlt
  rw [List.drop_left, hrest] at hnone
  contradiction

variable (hnil : answer [] = none)
include hnil

theorem not_isAnswer_nil {pre : Text} {a : α} : ¬ IsAnswer answer [] pre a := by
  rintro ⟨rest, heq, hanswer⟩
  obtain ⟨-, rfl⟩ := List.append_eq_nil_iff.mp heq.symm
  rw [hnil] at hanswer
  contradiction

/-- A search finds nothing exactly if there is nothing to see at any place. -/
theorem search_eq_none_iff :
    search (fun _ => answer) t = none ↔ ∀ pre a, ¬ IsAnswer answer t pre a := by
  suffices h : ∀ before, searchFrom (fun _ => answer) before t = none ↔
      ∀ pre a, ¬ IsAnswer answer t pre a from h none
  induction t with
  | nil => exact fun before => ⟨fun _ _ _ => not_isAnswer_nil hnil, fun _ => rfl⟩
  | cons b rest ih =>
    intro before
    cases hhead : answer (b :: rest) with
    | some a => simpa [searchFrom, hhead] using ⟨[], a, isAnswer_cons.mpr (.inl ⟨rfl, hhead⟩)⟩
    | none =>
      have hcons : ∀ pre a, IsAnswer answer (b :: rest) pre a ↔
          ∃ x, pre = b :: x ∧ IsAnswer answer rest x a := by
        simp [isAnswer_cons, hhead]
      simp only [searchFrom, hhead, ih, hcons]
      grind

/-- A search finds what is seen at the leftmost place where there is something to see. -/
theorem search_eq_some_iff {a : α} :
    search (fun _ => answer) t = some a ↔
      ∃ pre, IsAnswer answer t pre a ∧ ∀ x c, IsAnswer answer t x c → pre.length ≤ x.length := by
  suffices h : ∀ before, searchFrom (fun _ => answer) before t = some a ↔
      ∃ pre, IsAnswer answer t pre a ∧ ∀ x c, IsAnswer answer t x c → pre.length ≤ x.length from
    h none
  induction t with
  | nil => simp [searchFrom, not_isAnswer_nil hnil]
  | cons b rest ih =>
    intro before
    cases hhead : answer (b :: rest) with
    | some c =>
      simp only [searchFrom, hhead, Option.some.injEq]
      constructor
      · rintro rfl
        exact ⟨[], isAnswer_cons.mpr (.inl ⟨rfl, hhead⟩), fun _ _ _ => Nat.zero_le _⟩
      · rintro ⟨pre, hanswer, hfirst⟩
        have hpre := hfirst [] c (isAnswer_cons.mpr (.inl ⟨rfl, hhead⟩))
        obtain rfl := List.length_eq_zero_iff.mp (Nat.le_zero.mp hpre)
        simpa [isAnswer_cons, hhead] using hanswer
    | none =>
      have hcons : ∀ pre c, IsAnswer answer (b :: rest) pre c ↔
          ∃ x, pre = b :: x ∧ IsAnswer answer rest x c := by
        simp [isAnswer_cons, hhead]
      simp only [searchFrom, hhead, ih, hcons]
      constructor
      · rintro ⟨pre, hanswer, hfirst⟩
        refine ⟨b :: pre, ⟨pre, rfl, hanswer⟩, ?_⟩
        rintro _ c ⟨x, rfl, hx⟩
        simpa using hfirst x c hx
      · rintro ⟨_, ⟨pre, rfl, hanswer⟩, hfirst⟩
        exact ⟨pre, hanswer, fun x c hx => by simpa using hfirst (b :: x) c ⟨x, rfl, hx⟩⟩

end

end CatalogEdit.Text
