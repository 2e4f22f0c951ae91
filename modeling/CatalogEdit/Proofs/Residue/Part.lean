import CatalogEdit.Proofs.Mention.TagWord
import CatalogEdit.Proofs.Residue.SinglePass
import CatalogEdit.Proofs.Text.Quotation
import Mathlib.Data.List.Find

/-!
# The residue of a part of a request

Numerals, currency symbols and punctuation hold no letter, so a request without quotes is read on
each side of a letter by itself. What stands between two words of the command therefore gives way to
a space, and the residue stays the same, exactly if it leaves no residue of its own.

## Main statements

* `Residue.stopsAt_numberToken`, `Residue.stopsAt_currencySymbol` — no sign reaches across a letter.
* `Residue.strip_append_cons` — a request is cut at a letter.
* `Residue.ofText_append_eq_iff` — when a part of a request leaves the residue as it is.
-/

namespace CatalogEdit

namespace Residue

/-! ## Signs before a letter -/

theorem isPunctuation_of_isLetter {b : UInt8} : Byte.isLetter b → isPunctuation b = false := by
  simp only [isPunctuation, List.contains_cons, List.contains_nil]
  grind

theorem isQuoteMark_of_isLetter {b : UInt8} (h : Byte.isLetter b) : Text.isQuoteMark b = false :=
  Bool.eq_false_iff.mpr fun hmark => by simp [Text.isLetter_of_isQuoteMark hmark] at h

section

variable {c : UInt8} (hc : Byte.isLetter c)
include hc

theorem stopsAt_numberToken : Text.StopsAt numberToken c where
  append before x y := by
    have hpercent : c ≠ Byte.percent := Byte.ne_of_isLetter hc rfl
    cases hread : Numeral.read? x with
    | none => simp only [numberToken, Numeral.read?_append_cons hc, hread, Option.map_none]
    | some n =>
      simp only [numberToken, Numeral.read?_append_cons hc, hread, Option.map_some,
        List.drop_append_of_le_length (Numeral.width_le_of_read? hread),
        Text.trimStart_append_cons (Byte.isBlank_of_isLetter hc), List.length_append,
        Nat.add_sub_add_right, Text.head?_append_cons_beq hpercent]
  width before x a width h := by
    obtain ⟨n, -, hn⟩ := Option.map_eq_some_iff.mp h
    obtain ⟨-, rfl⟩ := Prod.mk.inj hn
    have hrest : (Text.trimStart (x.drop n.width)).length ≤ x.length := by
      refine (List.dropWhile_suffix _).length_le.trans ?_
      simp
    split
    next hpercent =>
      have hne : Text.trimStart (x.drop n.width) ≠ [] := by
        intro hnil
        simp [hnil] at hpercent
      have hpos := List.length_pos_of_ne_nil hne
      omega
    next => omega
  before before before' x := rfl

theorem currencySymbolAt?_append_cons (x y : Text) :
    Mention.currencySymbolAt? (x ++ c :: y) = Mention.currencySymbolAt? x := by
  refine List.find?_congr fun symbol hsymbol => Text.isPrefixOf_append_cons (fun hmem => ?_) x y
  rw [Mention.isLetter_of_mem_currencySymbols symbol hsymbol c hmem] at hc
  contradiction

theorem stopsAt_currencySymbol : Text.StopsAt currencySymbol c where
  append before x y := by
    rw [currencySymbol, currencySymbolAt?_append_cons hc, currencySymbol]
  width before x a width h := by
    obtain ⟨symbol, hfind, hsymbol⟩ := Option.map_eq_some_iff.mp h
    obtain ⟨-, rfl⟩ := Prod.mk.inj hsymbol
    rw [Mention.currencySymbolAt?] at hfind
    have hprefix : symbol.isPrefixOf x := by simpa using List.find?_some hfind
    exact (List.isPrefixOf_iff_prefix.mp hprefix).length_le
  before before before' x := rfl

/-- What stands on each side of a letter is stripped by itself. -/
theorem strip_append_cons {x y : Text} (hx : x.IsPlain) (hy : y.IsPlain) :
    strip (x ++ c :: y) = strip x ++ c :: strip y := by
  have hplain : Text.IsPlain (x ++ c :: y) :=
    List.forall_mem_append.mpr ⟨hx, List.forall_mem_cons.mpr ⟨isQuoteMark_of_isLetter hc, hy⟩⟩
  rw [strip, Text.blankOut_quotedLiteral_of_isPlain hplain,
    (stopsAt_numberToken hc).blankOut_append_cons, (stopsAt_currencySymbol hc).blankOut_append_cons,
    blankPunctuation, List.map_append, List.map_cons, isPunctuation_of_isLetter hc, strip, strip,
    Text.blankOut_quotedLiteral_of_isPlain hx, Text.blankOut_quotedLiteral_of_isPlain hy]
  rfl

end

theorem strip_nil : strip [] = [] := rfl

/-- A request is cut behind a letter. -/
theorem strip_append_of_getLast? {x y : Text} (hx : x.IsPlain) (hy : y.IsPlain)
    (h : ∃ c ∈ x.getLast?, Byte.isLetter c) : strip (x ++ y) = strip x ++ strip y := by
  obtain ⟨c, hlast, hc⟩ := h
  obtain ⟨x, rfl⟩ := List.getLast?_eq_some_iff.mp hlast
  have hx' := (List.forall_mem_append.mp hx).1
  have hlast : strip (x ++ [c]) = strip x ++ c :: strip [] :=
    strip_append_cons hc hx' (List.forall_mem_nil _)
  rw [List.append_assoc, List.singleton_append, strip_append_cons hc hx' hy, hlast, strip_nil,
    List.append_assoc, List.singleton_append]

/-- A request is cut before a letter, and at its end. -/
theorem strip_append_of_head? {x y : Text} (hx : x.IsPlain) (hy : y.IsPlain)
    (h : ∀ c ∈ y.head?, Byte.isLetter c) : strip (x ++ y) = strip x ++ strip y := by
  cases y with
  | nil => rw [strip_nil, List.append_nil, List.append_nil]
  | cons c y =>
    have hc := h c rfl
    have hy' := (List.forall_mem_cons.mp hy).2
    have hcons : strip ([] ++ c :: y) = strip [] ++ c :: strip y :=
      strip_append_cons hc (List.forall_mem_nil _) hy'
    rw [strip_append_cons hc hx hy']
    exact congrArg (strip x ++ ·) hcons.symm

/-! ## The ends of what is left -/

/-- What is true of the ends of a text with spaces for occurrences is true of them without signs. -/
theorem eq_space_or_mem_strip {edge : Text → Option UInt8}
    (hmap : ∀ f t, edge (t.map f) = (edge t).map f)
    (hblankOut : ∀ {α : Type} (m : Matcher α) (t : Text),
      ∀ b ∈ edge (Text.blankOut m t), b = Byte.space ∨ b ∈ edge t) (t : Text) :
    ∀ b ∈ edge (strip t), b = Byte.space ∨ b ∈ edge t := by
  intro b hb
  rw [strip, blankPunctuation, hmap] at hb
  obtain ⟨c, hc, rfl⟩ := Option.map_eq_some_iff.mp hb
  split
  next => exact .inl rfl
  next =>
    rcases hblankOut _ _ c hc with hspace | hc
    · exact .inl hspace
    rcases hblankOut _ _ c hc with hspace | hc
    · exact .inl hspace
    exact hblankOut _ _ c hc

theorem eq_space_or_mem_head?_strip (t : Text) :
    ∀ b ∈ (strip t).head?, b = Byte.space ∨ b ∈ t.head? :=
  eq_space_or_mem_strip (fun _ _ => List.head?_map) Text.eq_space_or_mem_head?_blankOut t

theorem eq_space_or_mem_getLast?_strip (t : Text) :
    ∀ b ∈ (strip t).getLast?, b = Byte.space ∨ b ∈ t.getLast? :=
  eq_space_or_mem_strip (fun _ _ => List.getLast?_map) Text.eq_space_or_mem_getLast?_blankOut t

theorem strip_eq_nil_iff {t : Text} : strip t = [] ↔ t = [] := by
  simp [strip, blankPunctuation]

/-- A byte at the end of what is left belongs to no word in ASCII, if the text ended at an edge. -/
theorem isWord_eq_false_of_isAsciiEdge {neighbour : Option UInt8}
    (hedge : Mention.isAsciiEdge neighbour) {b : UInt8} (hb : b = Byte.space ∨ b ∈ neighbour)
    (hascii : b < 0x80) : Byte.isWord b = false := by
  rcases hb with rfl | hb
  · rfl
  · rw [Byte.isWord_eq_isAsciiWord hascii]
    rw [Option.mem_def.mp hb] at hedge
    simpa using hedge

/-! ## The residue of a part -/

theorem isAsciiWord_of_mem_stopWords :
    ∀ word ∈ Lexicon.stopWords, ∀ b ∈ word, Byte.isAsciiWord b := by
  decide +kernel

section

variable {commandWords : List Text} (h : ∀ word ∈ commandWords, ∀ b ∈ word, Byte.isAsciiWord b)
include h

theorem lt_of_isTaken (run : Text) (hrun : isTaken commandWords run) : ∀ b ∈ run, b < 0x80 := by
  obtain ⟨word, hmem, hsame⟩ := List.any_eq_true.mp hrun
  have hword : ∀ b ∈ word, Byte.isAsciiWord b :=
    (List.mem_append.mp hmem).elim (h word) (isAsciiWord_of_mem_stopWords word)
  exact fun b hb => Byte.lt_of_isAsciiWord
    (Text.forall_mem_of_lower_eq Byte.ignoresCase_isAsciiWord (beq_iff_eq.mp hsame) hword b hb)

theorem ofText_eq_collapse_blankRuns (t : Text) :
    ofText t commandWords =
      Text.collapse (Text.blankRuns (isTaken commandWords) (strip t)) := by
  have hwords : ∀ word ∈ commandWords, (∀ b ∈ word, Byte.isBlank b) ∨ ∀ b ∈ word, Byte.isWord b :=
    fun word hword => .inr fun b hb => by simp [Byte.isWord, h word hword b hb]
  rw [ofText, removeWords_fragments hwords]

/-- What stands in a request without quotes between a letter and the next one, or the end, and
touches no word in ASCII, gives way to a space, and the residue stays the same, exactly if it leaves
no residue of its own. -/
theorem ofText_append_eq_iff {front part back : Text} (hfront : front.IsPlain)
    (hpart : part.IsPlain) (hback : back.IsPlain) (hne : part ≠ [])
    (hletter : ∃ c ∈ front.getLast?, Byte.isLetter c) (hnext : ∀ c ∈ back.head?, Byte.isLetter c)
    (hhead : Mention.isAsciiEdge part.head?)
    (hlast : back = [] ∨ Mention.isAsciiEdge part.getLast?) :
    ofText (front ++ (part ++ back)) commandWords =
        ofText (front ++ Byte.space :: back) commandWords ↔
      ofText part commandWords = [] := by
  have hspacePlain : Text.IsPlain [Byte.space] := by decide
  have hcut : strip (front ++ (part ++ back)) = strip front ++ (strip part ++ strip back) := by
    rw [strip_append_of_getLast? hfront (List.forall_mem_append.mpr ⟨hpart, hback⟩) hletter,
      strip_append_of_head? hpart hback hnext]
  have hcutSpace : strip (front ++ Byte.space :: back) =
      strip front ++ Byte.space :: strip back := by
    have hspace : strip ([Byte.space] ++ back) = strip [Byte.space] ++ strip back :=
      strip_append_of_head? hspacePlain hback hnext
    rw [strip_append_of_getLast? hfront (List.forall_mem_cons.mpr ⟨rfl, hback⟩) hletter]
    exact congrArg (strip front ++ ·) hspace
  have hlastStrip : strip back = [] ∨
      ∀ b ∈ (strip part).getLast?, b < 0x80 → Byte.isWord b = false :=
    hlast.imp strip_eq_nil_iff.mpr fun hedge b hb =>
      isWord_eq_false_of_isAsciiEdge hedge (eq_space_or_mem_getLast?_strip part b hb)
  simp only [ofText_eq_collapse_blankRuns h]
  rw [hcut, hcutSpace, Text.collapse_eq_iff, Text.collapse_eq_nil_iff]
  exact Text.words_blankRuns_append_eq_iff (lt_of_isTaken h) (mt strip_eq_nil_iff.mp hne)
    (fun b hb => isWord_eq_false_of_isAsciiEdge hhead (eq_space_or_mem_head?_strip part b hb))
    hlastStrip

end

end Residue

end CatalogEdit
