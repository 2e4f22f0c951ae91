import CatalogEdit.Mention.Tags
import CatalogEdit.Proofs.Mention.Money
import CatalogEdit.Proofs.Mention.Place
import CatalogEdit.Proofs.Mention.TagWord
import CatalogEdit.Proofs.Residue.SinglePass
import CatalogEdit.Proofs.Text.CharacterScan
import CatalogEdit.Proofs.Text.Quotation

/-!
# What is read from a request keeps its characters whole

Quoted literals, numerals and words are cut out of a request byte by byte. All of them begin and end
at bytes of ASCII or are characters themselves, so the tags, the place and the residue of a
well-formed request are well formed.

## Main statements

* `Text.keepsCharacters_quotedLiteral`, `Residue.keepsCharacters_numberToken`,
  `Residue.keepsCharacters_currencySymbol`, `Text.keepsCharacters_standalone`,
  `Mention.keepsCharacters_tagWord` — no recogniser cuts a character.
* `Mention.isWellFormed_of_mem_tags`, `Mention.isWellFormed_of_location?` — tags and places.
* `Residue.isWellFormed_ofText` — the residue.
-/

namespace CatalogEdit

open Utf8 (isWellFormed)

variable {t u : Text}

/-! ## Trimming and words -/

namespace Text

theorem lt_of_isBlank {b : UInt8} : Byte.isBlank b → b < 0x80 := by grind

theorem isAscii_of_isBlank {blanks : Text} (h : ∀ b ∈ blanks, Byte.isBlank b) : blanks.IsAscii :=
  fun b hb => lt_of_isBlank (h b hb)

theorem isWellFormed_trim (t : Text) : isWellFormed (trim t) ↔ isWellFormed t := by
  obtain ⟨left, right, heq, hleft, hright⟩ := exists_blanks_trim t
  conv_rhs => rw [heq]
  rw [Utf8.isWellFormed_ascii_append (isAscii_of_isBlank hleft),
    Utf8.isWellFormed_append_ascii (isAscii_of_isBlank hright)]

theorem isWellFormed_of_label? (ht : isWellFormed t) (h : label? t = some u) : isWellFormed u := by
  rw [← (label?_eq_some.mp h).1, isWellFormed_trim]
  exact ht

theorem isWellFormed_intercalate_space {ws : List Text} (h : ∀ w ∈ ws, isWellFormed w) :
    isWellFormed ([Byte.space].intercalate ws) := by
  induction ws with
  | nil => rfl
  | cons w ws ih =>
    obtain ⟨hw, hws⟩ := List.forall_mem_cons.mp h
    cases ws with
    | nil => simpa using hw
    | cons w' ws =>
      rw [List.intercalate_cons_cons, List.append_assoc, List.singleton_append,
        Utf8.isWellFormed_append_cons_iff (by decide)]
      exact ⟨hw, ih hws⟩

theorem isWellFormed_collapse (h : isWellFormed t) : isWellFormed (collapse t) := by
  refine isWellFormed_intercalate_space fun w hw => ?_
  exact Utf8.isWellFormed_of_mem_splitOnP (fun _ => lt_of_isBlank) h (List.mem_of_mem_filter hw)

/-! ## Recognisers -/

theorem lt_of_isQuoteMark {b : UInt8} : isQuoteMark b → b < 0x80 := by grind [isQuoteMark]

theorem keepsCharacters_quotedLiteral :
    quotedLiteral.KeepsCharacters fun literal => isWellFormed literal where
  first before b rest a width h := by
    simp only [quotedLiteral] at h
    split at h
    next hmark =>
      have hb := lt_of_isQuoteMark hmark
      grind
    next => contradiction
  behind before t a width ht h := by
    cases t with
    | nil => contradiction
    | cons mark rest =>
      simp only [quotedLiteral] at h
      split at h
      next hmark =>
        obtain ⟨body, hbody, heq⟩ := Option.map_eq_some_iff.mp h
        obtain ⟨rfl, hwidth⟩ := Prod.mk.inj heq
        obtain ⟨rest, rfl⟩ := exists_of_quotedBody? hbody
        have hb := lt_of_isQuoteMark hmark
        rw [Utf8.isWellFormed_cons hb, Utf8.isWellFormed_append_cons_iff hb] at ht
        obtain rfl : body.length + 1 = width := by omega
        refine ⟨ht.1, ?_⟩
        simpa using ht.2
      next => contradiction

theorem keepsCharacters_standalone {word : Text} (hword : isWellFormed word) :
    (standalone word).KeepsCharacters fun _ => True := by
  refine Matcher.keepsCharacters_of_isWellFormed fun before t a width h => ?_
  rw [standalone_eq] at h
  split at h
  next hstands =>
    obtain ⟨-, hlength⟩ := Prod.mk.inj (Option.some.inj h)
    obtain ⟨-, found, rest, rfl, hfound, -⟩ := standsAtHead_iff.mp hstands
    refine ⟨found, rest, rfl, ?_, ?_⟩
    · rw [← hlength, ← length_lower, hfound, length_lower]
    · rw [← Utf8.isWellFormed_lower, hfound, Utf8.isWellFormed_lower]
      exact hword
  next => contradiction

theorem isWellFormed_removeWord {word : Text} (hword : isWellFormed word) (ht : isWellFormed t) :
    isWellFormed (removeWord word t) :=
  (keepsCharacters_standalone hword).blankOut ht

theorem isWellFormed_removeWords {words : List Text} (hwords : ∀ word ∈ words, isWellFormed word)
    (ht : isWellFormed t) : isWellFormed (removeWords words t) := by
  induction words generalizing t with
  | nil => exact ht
  | cons word words ih =>
    obtain ⟨hword, hwords⟩ := List.forall_mem_cons.mp hwords
    exact ih hwords (isWellFormed_removeWord hword ht)

end Text

/-! ## Tags and places -/

namespace Mention

theorem keepsCharacters_tagWord : tagWord.KeepsCharacters fun _ => True := by
  refine Matcher.keepsCharacters_of_isWellFormed fun before t _ width h => ?_
  obtain ⟨-, word, rest, rfl, hword, -, hwidth⟩ := tagWord_eq_some_iff.mp h
  refine ⟨word, rest, rfl, hwidth.symm, Utf8.isWellFormed_of_isAscii fun b hb => ?_⟩
  exact Byte.lt_of_isAsciiWord (isAsciiWord_of_isLetter (hword.isLetter b hb))

theorem lt_of_isTagSeparator {b : UInt8} : isTagSeparator b → b < 0x80 := by
  grind [isTagSeparator]

theorem lt_of_isLocationByte {b : UInt8} : isLocationByte b → b < 0x80 := by
  grind [isLocationByte]

/-- A tag is a label of a well-formed part of the request. -/
theorem isWellFormed_of_mem_tags (ht : isWellFormed t) {tag : Text} (htag : tag ∈ tags t) :
    isWellFormed tag := by
  have hquoted : ∀ tag ∈ quotedTags t, isWellFormed tag := by
    intro tag h
    obtain ⟨literal, hliteral, hlabel⟩ := List.mem_filterMap.mp h
    exact Text.isWellFormed_of_label?
      (Text.keepsCharacters_quotedLiteral.occurrences ht literal hliteral) hlabel
  have hlisted : ∀ tag ∈ listedTags t, isWellFormed tag := by
    intro tag h
    rw [listedTags] at h
    split at h
    next => contradiction
    next segment hsegment =>
      obtain ⟨part, hpart, hlabel⟩ := List.mem_filterMap.mp h
      have hformed := keepsCharacters_tagWord.stretches ht segment (List.mem_of_getElem? hsegment)
      exact Text.isWellFormed_of_label?
        (Utf8.isWellFormed_of_mem_splitOnP (fun _ => lt_of_isTagSeparator) hformed hpart) hlabel
  rw [tags] at htag
  split at htag
  next => exact hlisted tag htag
  next => exact hquoted tag htag

/-- The name of a place is read up to the first byte outside ASCII, so it needs no context. -/
theorem isWellFormed_of_location? {place : Text} (h : location? t = some place) :
    isWellFormed place :=
  Utf8.isWellFormed_of_isAscii fun b hb => lt_of_isLocationByte (forall_mem_location? h b hb)

end Mention

/-! ## The residue -/

namespace Residue

theorem isAscii_text {n : Numeral} (h : n.IsWellFormed) : n.text.IsAscii := by
  have hdigit : ∀ b, Byte.isDigit b → b < 0x80 := by grind
  intro b hb
  simp only [Numeral.text, List.mem_append] at hb
  rcases hb with (hsign | hwhole) | hfraction
  · split at hsign
    next =>
      rw [List.mem_singleton.mp hsign]
      decide
    next => exact absurd hsign List.not_mem_nil
  · exact hdigit b (h.isDigit_whole b hwhole)
  · split at hfraction
    next => exact absurd hfraction List.not_mem_nil
    next =>
      rcases List.mem_cons.mp hfraction with rfl | hfraction
      · decide
      · exact hdigit b (h.isDigit_fraction b hfraction)

theorem keepsCharacters_numberToken : numberToken.KeepsCharacters fun _ => True := by
  refine Matcher.keepsCharacters_of_isWellFormed fun before t _ width h => ?_
  obtain ⟨n, hread, heq⟩ := Option.map_eq_some_iff.mp h
  obtain ⟨behind, rfl, hn, -⟩ := Numeral.read?_eq_some_iff.mp hread
  obtain ⟨blanks, hbehind, hblanks⟩ := Text.exists_blanks_trimStart behind
  obtain ⟨-, hwidth⟩ := Prod.mk.inj heq
  rw [Numeral.width, List.drop_left] at hwidth
  have hascii : isWellFormed (n.text ++ blanks) := by
    rw [Utf8.isWellFormed_ascii_append (isAscii_text hn)]
    exact Utf8.isWellFormed_of_isAscii (Text.isAscii_of_isBlank hblanks)
  generalize Text.trimStart behind = rest at hbehind hwidth
  subst hbehind
  simp only [List.length_append] at hwidth
  split at hwidth
  next hpercent =>
    obtain ⟨rest, rfl⟩ : ∃ rest', rest = Byte.percent :: rest' := by
      cases rest <;> simp_all
    refine ⟨n.text ++ blanks ++ [Byte.percent], rest, by simp, ?_, ?_⟩
    · simp only [List.length_append, List.length_cons, List.length_nil] at hwidth ⊢
      omega
    · rw [Utf8.isWellFormed_append hascii]
      decide
  next =>
    refine ⟨n.text ++ blanks, rest, by simp, ?_, hascii⟩
    rw [List.length_append]
    omega

theorem keepsCharacters_currencySymbol : currencySymbol.KeepsCharacters fun _ => True := by
  refine Matcher.keepsCharacters_of_isWellFormed fun before t _ width h => ?_
  obtain ⟨symbol, hsymbol, heq⟩ := Option.map_eq_some_iff.mp h
  obtain ⟨-, hwidth⟩ := Prod.mk.inj heq
  obtain ⟨hmem, rest, rfl⟩ := Mention.currencySymbolAt?_eq_some_iff.mp hsymbol
  obtain ⟨s, -, rfl⟩ := List.mem_map.mp hmem
  exact ⟨utf8 s, rest, rfl, hwidth, Utf8.isWellFormed_utf8 s⟩

theorem isWellFormed_blankPunctuation (h : isWellFormed t) : isWellFormed (blankPunctuation t) := by
  have hascii : ∀ b, isPunctuation b → b < 0x80 :=
    Byte.forall_of_fin (p := fun b => isPunctuation b → b < 0x80) (by decide +kernel)
  have hspace : Byte.space < 0x80 := by decide
  exact (Utf8.isWellFormed_map_iff (fun b => by grind) (fun b => by grind)).mpr h

theorem isWellFormed_strip (h : isWellFormed t) : isWellFormed (strip t) :=
  isWellFormed_blankPunctuation <| keepsCharacters_currencySymbol.blankOut <|
    keepsCharacters_numberToken.blankOut <| Text.keepsCharacters_quotedLiteral.blankOut h

/-- The residue of a well-formed request is well formed if the words of the command are. -/
theorem isWellFormed_ofText {commandWords : List Text}
    (hwords : ∀ word ∈ commandWords, isWellFormed word) (ht : isWellFormed t) :
    isWellFormed (ofText t commandWords) := by
  refine Text.isWellFormed_collapse (Text.isWellFormed_removeWords ?_ (isWellFormed_strip ht))
  intro word hword
  rcases List.mem_append.mp (mem_fragments.mp hword).1 with hmem | hmem
  · exact hwords word hmem
  · obtain ⟨s, -, rfl⟩ := List.mem_map.mp hmem
    exact Utf8.isWellFormed_utf8 s

end Residue

end CatalogEdit
