import CatalogEdit.Proofs.Mention.Number

/-!
# Money is read behind the first symbol

An amount of money is the leftmost numeral that has a currency symbol before it, whichever symbol
that is; a symbol without a numeral is passed over. No symbol begins another one, so it makes no
difference in which order they are looked for: one symbol after the other, each only before the best
place so far, leads to the same amount.

## Main definitions

* `Mention.IsAmount` — a numeral with a symbol before it.
* `Mention.amountBySymbols?` — the amount, looked for symbol by symbol.

## Main statements

* `Mention.moneyAt?_eq_some_iff` — money is a numeral behind any of the symbols.
* `Mention.IsEarliest.foldl` — symbol by symbol, the best place so far is the first one.
* `Mention.money_is_read_behind_the_first_symbol` — the amount of a request.
-/

namespace CatalogEdit.Mention

open Text (IsAnswer)

variable {symbol t pre post : Text} {symbols : List Text} {n : Numeral}

/-- The symbol, blanks and the numeral `n` stand between `pre` and `post`, and neither a digit nor a
fraction is left behind the numeral. -/
structure IsAmount (symbol t pre : Text) (n : Numeral) (post : Text) : Prop where
  behind : ∃ blanks, t = pre ++ (symbol ++ (blanks ++ (n.text ++ post))) ∧
    ∀ b ∈ blanks, Byte.isBlank b
  isWellFormed : n.IsWellFormed
  endsBefore : n.EndsBefore post

/-- The numeral `n` stands behind one of the symbols, and `pre` before that symbol. -/
def HasAmount (symbols : List Text) (t pre : Text) (n : Numeral) : Prop :=
  ∃ symbol ∈ symbols, ∃ post, IsAmount symbol t pre n post

/-! ## Behind one symbol -/

/-- The numeral after the given symbol at the head of `t`. -/
def amountBehind? (symbol t : Text) : Option Numeral :=
  if symbol.isPrefixOf t then Numeral.read? (Text.trimStart (t.drop symbol.length)) else none

theorem isBlank_head?_text_append (hn : n.IsWellFormed) (post : Text) :
    ∀ b ∈ (n.text ++ post).head?, Byte.isBlank b = false := by
  intro b hb
  obtain ⟨d, digits, hd, htext⟩ := hn.exists_text_eq
  have hclass : b = Byte.minus ∨ b = d := by
    cases hsign : n.negative <;> simp_all
  rcases hclass with rfl | rfl
  · decide
  · by_contra hblank
    simp [(isDigit_of_isBlank (by simpa using hblank)).1] at hd

theorem amountBehind?_eq_some_iff :
    amountBehind? symbol t = some n ↔ ∃ post, IsAmount symbol t [] n post := by
  constructor
  · intro h
    obtain ⟨hhead, hread⟩ := Option.ite_none_right_eq_some.mp h
    obtain ⟨rest, rfl⟩ := List.isPrefixOf_iff_prefix.mp hhead
    rw [List.drop_left] at hread
    obtain ⟨blanks, hrest, hblanks⟩ := Text.exists_blanks_trimStart rest
    obtain ⟨post, hpost, hn, hends⟩ := Numeral.read?_eq_some_iff.mp hread
    exact ⟨post, ⟨blanks, by rw [List.nil_append, ← hpost, ← hrest], hblanks⟩, hn, hends⟩
  · rintro ⟨post, ⟨blanks, rfl, hblanks⟩, hn, hends⟩
    have htrim : Text.trimStart (blanks ++ (n.text ++ post)) = n.text ++ post := by
      rw [Text.trimStart_append hblanks,
        Text.trimStart_eq_self (isBlank_head?_text_append hn post)]
    simp [amountBehind?, htrim, Numeral.read?_text_append hn hends]

/-! ## Behind any symbol -/

/-- No currency symbol begins another one. -/
theorem currencySymbols_prefixFree :
    ∀ symbol ∈ Lexicon.currencySymbols, ∀ other ∈ Lexicon.currencySymbols,
      symbol <+: other → symbol = other := by
  decide +kernel

/-- At most one currency symbol stands at the head of a text. -/
theorem currencySymbolAt?_eq_some_iff :
    currencySymbolAt? t = some symbol ↔ symbol ∈ Lexicon.currencySymbols ∧ symbol <+: t := by
  have hsound : ∀ other, currencySymbolAt? t = some other →
      other ∈ Lexicon.currencySymbols ∧ other <+: t := by
    intro other h
    rw [currencySymbolAt?] at h
    exact ⟨List.mem_of_find?_eq_some h, by simpa using List.find?_some h⟩
  refine ⟨hsound symbol, fun ⟨hmem, hhead⟩ => ?_⟩
  obtain ⟨other, hother⟩ : ∃ other, currencySymbolAt? t = some other :=
    Option.isSome_iff_exists.mp <| List.find?_isSome.mpr
      ⟨symbol, hmem, List.isPrefixOf_iff_prefix.mpr hhead⟩
  obtain ⟨hmem', hhead'⟩ := hsound other hother
  rw [hother, Option.some.injEq]
  rcases List.prefix_or_prefix_of_prefix hhead hhead' with h | h
  · exact (currencySymbols_prefixFree symbol hmem other hmem' h).symm
  · exact currencySymbols_prefixFree other hmem' symbol hmem h

/-- Money is a numeral behind any of the symbols. -/
theorem moneyAt?_eq_some_iff :
    moneyAt? t = some n ↔ ∃ symbol ∈ Lexicon.currencySymbols, amountBehind? symbol t = some n := by
  simp only [moneyAt?, Option.bind_eq_some_iff, currencySymbolAt?_eq_some_iff, amountBehind?,
    Option.ite_none_right_eq_some, List.isPrefixOf_iff_prefix, and_assoc]

theorem moneyAt?_eq_none (h : ∀ symbol ∈ Lexicon.currencySymbols, amountBehind? symbol t = none) :
    moneyAt? t = none := by
  refine Option.eq_none_iff_forall_ne_some.mpr fun n hmoney => ?_
  obtain ⟨symbol, hmem, hamount⟩ := moneyAt?_eq_some_iff.mp hmoney
  rw [h symbol hmem] at hamount
  contradiction

theorem ne_nil_of_mem_currencySymbols : ∀ symbol ∈ Lexicon.currencySymbols, symbol ≠ [] := by
  decide +kernel

theorem moneyAt?_nil : moneyAt? [] = none :=
  moneyAt?_eq_none fun symbol hsymbol => by
    simp [amountBehind?, ne_nil_of_mem_currencySymbols symbol hsymbol]

theorem isAnswer_moneyAt?_iff :
    IsAnswer moneyAt? t pre n ↔ HasAmount Lexicon.currencySymbols t pre n := by
  simp only [IsAnswer, moneyAt?_eq_some_iff, amountBehind?_eq_some_iff]
  constructor
  · rintro ⟨rest, rfl, symbol, hmem, post, ⟨blanks, rfl, hblanks⟩, hn, hends⟩
    exact ⟨symbol, hmem, post, ⟨blanks, rfl, hblanks⟩, hn, hends⟩
  · rintro ⟨symbol, hmem, post, ⟨blanks, rfl, hblanks⟩, hn, hends⟩
    exact ⟨_, rfl, symbol, hmem, post, ⟨blanks, rfl, hblanks⟩, hn, hends⟩

/-! ## Symbol by symbol -/

/-- The first answer at the first `limit` places of a text, and its place. -/
def searchWithin {α : Type} (answer : Text → Option α) (limit : Nat) (t : Text) :
    Option (Nat × α) :=
  (List.range limit).findSome? fun place => (answer (t.drop place)).map (Prod.mk place)

/-- The places of `t` that are still to be looked at: those before the best one so far. -/
def limit (t : Text) (best : Option (Nat × Numeral)) : Nat := best.elim t.length Prod.fst

/-- The best amount with one more symbol. -/
def better (t : Text) (best : Option (Nat × Numeral)) (symbol : Text) : Option (Nat × Numeral) :=
  (searchWithin (amountBehind? symbol) (limit t best) t).or best

/-- The amount of money, looked for symbol by symbol. -/
def amountBySymbols? (symbols : List Text) (t : Text) : Option Binary64 :=
  ((symbols.foldl (better t) none).bind fun best => best.2.value?).or (plainNumber? t)

section

variable {α : Type} {answer : Text → Option α} {places place : Nat} {a : α}

theorem searchWithin_eq_none_iff :
    searchWithin answer places t = none ↔ ∀ place < places, answer (t.drop place) = none := by
  simp [searchWithin]

theorem searchWithin_succ :
    searchWithin answer (places + 1) t =
      (searchWithin answer places t).or ((answer (t.drop places)).map (Prod.mk places)) := by
  simp [searchWithin, List.range_succ, List.findSome?_append]

theorem searchWithin_eq_some (h : searchWithin answer places t = some (place, a)) :
    place < places ∧ answer (t.drop place) = some a ∧
      ∀ earlier < place, answer (t.drop earlier) = none := by
  induction places with
  | zero => contradiction
  | succ places ih =>
    rw [searchWithin_succ, Option.or_eq_some_iff, Option.map_eq_some_iff] at h
    rcases h with hearlier | ⟨hnone, _, hlast, ⟨⟩⟩
    · obtain ⟨hlt, hrest⟩ := ih hearlier
      exact ⟨Nat.lt_succ_of_lt hlt, hrest⟩
    · exact ⟨Nat.lt_succ_self _, hlast, searchWithin_eq_none_iff.mp hnone⟩

end

/-- No symbol has an amount before the best place so far, and one of them has the amount there. -/
structure IsEarliest (symbols : List Text) (t : Text) (best : Option (Nat × Numeral)) : Prop where
  found : ∀ place n, best = some (place, n) →
    ∃ symbol ∈ symbols, amountBehind? symbol (t.drop place) = some n
  first : ∀ symbol ∈ symbols, ∀ place < limit t best, amountBehind? symbol (t.drop place) = none

theorem IsEarliest.better {best : Option (Nat × Numeral)} (h : IsEarliest symbols t best)
    (symbol : Text) : IsEarliest (symbols ++ [symbol]) t (better t best symbol) := by
  rw [Mention.better]
  cases hsearch : searchWithin (amountBehind? symbol) (limit t best) t with
  | none =>
    have hnone := searchWithin_eq_none_iff.mp hsearch
    constructor
    · intro place n hbest
      obtain ⟨other, hmem, hamount⟩ := h.found place n hbest
      exact ⟨other, List.mem_append_left _ hmem, hamount⟩
    · intro other hmem place hlt
      rcases List.mem_append.mp hmem with hmem | hmem
      · exact h.first other hmem place hlt
      · obtain rfl := List.mem_singleton.mp hmem
        exact hnone place hlt
  | some found =>
    obtain ⟨place, n⟩ := found
    obtain ⟨hlimit, hamount, hfirst⟩ := searchWithin_eq_some hsearch
    constructor
    · rintro _ _ ⟨⟩
      exact ⟨symbol, List.mem_append_right _ List.mem_cons_self, hamount⟩
    · intro other hmem earlier hlt
      rcases List.mem_append.mp hmem with hmem | hmem
      · exact h.first other hmem earlier (Nat.lt_trans hlt hlimit)
      · obtain rfl := List.mem_singleton.mp hmem
        exact hfirst earlier hlt

theorem IsEarliest.foldl {best : Option (Nat × Numeral)} (h : IsEarliest symbols t best)
    (more : List Text) : IsEarliest (symbols ++ more) t (more.foldl (Mention.better t) best) := by
  induction more generalizing symbols best with
  | nil => simpa using h
  | cons symbol more ih => simpa using ih (h.better symbol)

theorem isEarliest_nil (t : Text) : IsEarliest [] t none where
  found _ _ h := absurd h (by simp)
  first _ hmem := absurd hmem List.not_mem_nil

/-- An earliest place is where the search for money ends, whatever the order of the symbols. -/
theorem IsEarliest.search_moneyAt? {best : Option (Nat × Numeral)} (h : IsEarliest symbols t best)
    (hsymbols : ∀ symbol, symbol ∈ symbols ↔ symbol ∈ Lexicon.currencySymbols) :
    Text.search (fun _ rest => moneyAt? rest) t = best.map Prod.snd := by
  have hearlier : ∀ place < limit t best, moneyAt? (t.drop place) = none :=
    fun place hlt => moneyAt?_eq_none fun symbol hmem =>
      h.first symbol ((hsymbols symbol).mpr hmem) place hlt
  cases best with
  | none =>
    rw [Option.map_none, Text.search_eq_none_iff moneyAt?_nil]
    intro pre n hanswer
    have hlength : t.length ≤ pre.length := hanswer.le_length hearlier
    obtain ⟨rest, rfl, hrest⟩ := hanswer
    rw [List.length_append] at hlength
    obtain rfl := List.length_eq_zero_iff.mp (by omega : rest.length = 0)
    rw [moneyAt?_nil] at hrest
    contradiction
  | some best =>
    obtain ⟨symbol, hmem, hamount⟩ := h.found best.1 best.2 rfl
    have hanswer : moneyAt? (t.drop best.1) = some best.2 :=
      moneyAt?_eq_some_iff.mpr ⟨symbol, (hsymbols symbol).mp hmem, hamount⟩
    refine (Text.search_eq_some_iff moneyAt?_nil).mpr
      ⟨t.take best.1, ⟨t.drop best.1, (List.take_append_drop _ _).symm, hanswer⟩, ?_⟩
    intro x m hx
    exact Nat.le_trans (List.length_take_le _ _) (hx.le_length hearlier)

/-! ## The amount of a request -/

/-- The amount is the numeral behind the leftmost symbol that has one. Without such a symbol, or if
the value of that numeral is out of range, it is the first number. It is the same if the symbols are
looked for one after the other, in whatever order. -/
theorem money_is_read_behind_the_first_symbol (t : Text) :
    (∀ pre n, HasAmount Lexicon.currencySymbols t pre n →
      (∀ x m, HasAmount Lexicon.currencySymbols t x m → pre.length ≤ x.length) →
        currencyAmount? t = n.value?.or (plainNumber? t)) ∧
    ((¬ ∃ pre n, HasAmount Lexicon.currencySymbols t pre n) →
      currencyAmount? t = plainNumber? t) ∧
    ∀ symbols : List Text, symbols.Perm Lexicon.currencySymbols →
      amountBySymbols? symbols t = currencyAmount? t := by
  refine ⟨fun pre n hamount hfirst => ?_, fun hnone => ?_, fun symbols hperm => ?_⟩
  · have hsearch : Text.search (fun _ rest => moneyAt? rest) t = some n := by
      rw [Text.search_eq_some_iff moneyAt?_nil]
      simp only [isAnswer_moneyAt?_iff]
      exact ⟨pre, hamount, hfirst⟩
    rw [currencyAmount?, hsearch, Option.bind_some]
  · have hsearch : Text.search (fun _ rest => moneyAt? rest) t = none := by
      rw [Text.search_eq_none_iff moneyAt?_nil]
      simp only [isAnswer_moneyAt?_iff]
      exact fun pre n hamount => hnone ⟨pre, n, hamount⟩
    rw [currencyAmount?, hsearch, Option.bind_none, Option.none_or]
  · have hsearch := ((isEarliest_nil t).foldl symbols).search_moneyAt? fun _ => hperm.mem_iff
    rw [amountBySymbols?, currencyAmount?, hsearch, Option.bind_map]
    rfl

theorem money_is_read_behind_the_first_symbol_euro :
    HasAmount Lexicon.currencySymbols (utf8 "A4 in $, € -12.50 or $9") (utf8 "A4 in $, ")
      ⟨true, utf8 "12", utf8 "50"⟩ ∧
    currencyAmount? (utf8 "A4 in $, € -12.50 or $9") =
      (Numeral.value? ⟨true, utf8 "12", utf8 "50"⟩).or
        (plainNumber? (utf8 "A4 in $, € -12.50 or $9")) ∧
    ¬ (∃ pre n, HasAmount Lexicon.currencySymbols (utf8 "A4 in $") pre n) ∧
    currencyAmount? (utf8 "A4 in $") = plainNumber? (utf8 "A4 in $") ∧
    amountBySymbols? Lexicon.currencySymbols.reverse (utf8 "A4 in $, € -12.50 or $9") =
      currencyAmount? (utf8 "A4 in $, € -12.50 or $9") := by
  have hamount : HasAmount Lexicon.currencySymbols (utf8 "A4 in $, € -12.50 or $9")
      (utf8 "A4 in $, ") ⟨true, utf8 "12", utf8 "50"⟩ :=
    ⟨utf8 "€", by decide +kernel, utf8 " or $9",
      { behind := ⟨utf8 " ", by decide +kernel, by decide +kernel⟩
        isWellFormed := ⟨by decide +kernel, by decide +kernel, by decide +kernel⟩
        endsBefore := ⟨by decide +kernel, fun h => absurd h (by decide +kernel)⟩ }⟩
  have hearlier : ∀ place < (utf8 "A4 in $, ").length,
      moneyAt? ((utf8 "A4 in $, € -12.50 or $9").drop place) = none := by
    decide +kernel
  have hnone : ¬ ∃ pre n, HasAmount Lexicon.currencySymbols (utf8 "A4 in $") pre n := by
    rintro ⟨pre, n, hamount⟩
    refine (Text.search_eq_none_iff moneyAt?_nil).mp ?_ pre n (isAnswer_moneyAt?_iff.mpr hamount)
    decide +kernel
  obtain ⟨hmoney, -, horder⟩ := money_is_read_behind_the_first_symbol
    (utf8 "A4 in $, € -12.50 or $9")
  obtain ⟨-, hplain, -⟩ := money_is_read_behind_the_first_symbol (utf8 "A4 in $")
  exact ⟨hamount,
    hmoney _ _ hamount fun x m hx => IsAnswer.le_length hearlier (isAnswer_moneyAt?_iff.mpr hx),
    hnone, hplain hnone, horder _ (List.reverse_perm _)⟩

end CatalogEdit.Mention
