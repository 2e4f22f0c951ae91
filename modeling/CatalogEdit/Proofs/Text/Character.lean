import CatalogEdit.Proofs.Text.Case
import CatalogEdit.Proofs.Text.Scan
import CatalogEdit.Proofs.Text.Utf8
import CatalogEdit.Proofs.Text.Words

/-!
# Texts made of characters

A well-formed text is the UTF-8 form of a string. No byte that begins a character is ever one of the
bytes after the first, so a well-formed text can be cut before every byte of the first kind, without
looking at what was read before it.

## Main definitions

* `Utf8.IsCharacter` — the bytes of one character.
* `Utf8.IsEdge` — a text does not begin in the middle of a character.
* `Text.IsAscii` — every byte is a character.

## Main statements

* `Utf8.characterWidth?_eq_some_iff` — what is read as a character is one.
* `Utf8.isCharacter_iff`, `Utf8.isWellFormed_iff` — characters and well-formed texts are what
  characters and strings are written with.
* `Utf8.isWellFormed_induction` — induction on a well-formed text, character by character.
* `Utf8.isWellFormed_append_iff` — a well-formed text may be cut at an edge.
* `Utf8.isWellFormed_map_iff` — bytes of ASCII may be exchanged.
-/

namespace CatalogEdit

attribute [grind =] Byte.isContinuation

theorem Byte.isContinuation_iff {b : UInt8} :
    isContinuation b ↔ 0x80 ≤ b.toNat ∧ b.toNat < 0xC0 := by
  simp [isContinuation, UInt8.le_iff_toNat_le, UInt8.lt_iff_toNat_lt]

/-- Every byte is a character. -/
def Text.IsAscii (t : Text) : Prop := ∀ b ∈ t, b < 0x80

namespace Utf8

/-! ## Characters -/

/-- The bytes of one character: in its shortest form, no surrogate, and not beyond the last
character. -/
inductive IsCharacter : Text → Prop where
  | one {a : UInt8} (ha : a < 0x80) : IsCharacter [a]
  | two {a b : UInt8} (ha : 0xC2 ≤ a ∧ a ≤ 0xDF) (hb : Byte.isContinuation b) : IsCharacter [a, b]
  | three {a b c : UInt8} (ha : 0xE0 ≤ a ∧ a ≤ 0xEF) (hb : Byte.isContinuation b)
      (hshortest : a = 0xE0 → 0xA0 ≤ b) (hsurrogate : a = 0xED → b < 0xA0)
      (hc : Byte.isContinuation c) : IsCharacter [a, b, c]
  | four {a b c d : UInt8} (ha : 0xF0 ≤ a ∧ a ≤ 0xF4) (hb : Byte.isContinuation b)
      (hshortest : a = 0xF0 → 0x90 ≤ b) (hlast : a = 0xF4 → b < 0x90)
      (hc : Byte.isContinuation c) (hd : Byte.isContinuation d) : IsCharacter [a, b, c, d]

variable {c t u : Text}

/-- A byte that begins a character, and only bytes that do not. -/
theorem IsCharacter.exists_cons (h : IsCharacter c) :
    ∃ first tail, c = first :: tail ∧ Byte.isContinuation first = false ∧
      ∀ b ∈ tail, Byte.isContinuation b := by
  cases h with
  | one ha => exact ⟨_, _, rfl, by grind, by simp⟩
  | two ha hb => exact ⟨_, _, rfl, by grind, by simp [hb]⟩
  | three ha hb _ _ hc => exact ⟨_, _, rfl, by grind, by simp [hb, hc]⟩
  | four ha hb _ _ hc hd => exact ⟨_, _, rfl, by grind, by simp [hb, hc, hd]⟩

theorem IsCharacter.ne_nil (h : IsCharacter c) : c ≠ [] := by
  obtain ⟨first, tail, rfl, -⟩ := h.exists_cons
  exact List.cons_ne_nil first tail

/-- A character is a byte of ASCII or has no such byte. -/
theorem IsCharacter.ascii_or_wide (h : IsCharacter c) :
    (∃ a, c = [a] ∧ a < 0x80) ∨ ∀ b ∈ c, ¬ b < 0x80 := by
  cases h with
  | one ha => exact .inl ⟨_, rfl, ha⟩
  | two ha hb => exact .inr (by simp; grind)
  | three ha hb _ _ hc => exact .inr (by simp; grind)
  | four ha hb _ _ hc hd => exact .inr (by simp; grind)

/-! ## Reading a character -/

/-- The table of second bytes, by the number of bytes that follow. -/
theorem secondByte?_iff {first second : UInt8} {more : Nat} :
    (∃ low high, secondByte? first = some ((low, high), more) ∧ low ≤ second ∧ second ≤ high) ↔
      Byte.isContinuation second ∧
        (more = 0 ∧ (0xC2 ≤ first ∧ first ≤ 0xDF) ∨
          more = 1 ∧ (0xE0 ≤ first ∧ first ≤ 0xEF) ∧ (first = 0xE0 → 0xA0 ≤ second) ∧
            (first = 0xED → second < 0xA0) ∨
          more = 2 ∧ (0xF0 ≤ first ∧ first ≤ 0xF4) ∧ (first = 0xF0 → 0x90 ≤ second) ∧
            (first = 0xF4 → second < 0x90)) := by
  simp only [secondByte?, Bool.and_eq_true, decide_eq_true_eq, beq_iff_eq]
  repeat' split
  all_goals
    simp only [Option.some.injEq, Prod.mk.injEq, and_assoc, exists_and_left, exists_eq_left',
      reduceCtorEq, false_and, exists_false]
    grind

theorem characterWidth?_append (h : IsCharacter c) (rest : Text) :
    characterWidth? (c ++ rest) = some c.length := by
  cases h with
  | one ha => simp [characterWidth?, ha]
  | @two a b ha hb =>
    obtain ⟨low, high, hrow, hlow, hhigh⟩ := secondByte?_iff.mpr ⟨hb, .inl ⟨rfl, ha⟩⟩
    have hfirst : ¬ a < 0x80 := by grind
    simp [characterWidth?, hfirst, hrow, hlow, hhigh]
  | @three a b c ha hb hshortest hsurrogate hc =>
    obtain ⟨low, high, hrow, hlow, hhigh⟩ :=
      secondByte?_iff.mpr ⟨hb, .inr (.inl ⟨rfl, ha, hshortest, hsurrogate⟩)⟩
    have hfirst : ¬ a < 0x80 := by grind
    simp [characterWidth?, hfirst, hrow, hlow, hhigh, hc]
  | @four a b c d ha hb hshortest hlast hc hd =>
    obtain ⟨low, high, hrow, hlow, hhigh⟩ :=
      secondByte?_iff.mpr ⟨hb, .inr (.inr ⟨rfl, ha, hshortest, hlast⟩)⟩
    have hfirst : ¬ a < 0x80 := by grind
    simp [characterWidth?, hfirst, hrow, hlow, hhigh, hc, hd]

theorem exists_of_characterWidth? {n : Nat} (h : characterWidth? t = some n) :
    ∃ c rest, t = c ++ rest ∧ IsCharacter c ∧ c.length = n := by
  cases t with
  | nil => contradiction
  | cons a rest =>
    by_cases ha : a < 0x80
    · refine ⟨[a], rest, rfl, .one ha, ?_⟩
      simpa [characterWidth?, ha] using h
    · simp only [characterWidth?, ha, if_false] at h
      split at h
      next low high more b rest hrow =>
        split at h
        next hfits =>
          simp only [Bool.and_eq_true, decide_eq_true_eq, beq_iff_eq, List.all_eq_true] at hfits
          obtain ⟨⟨hrange, hlength⟩, htail⟩ := hfits
          obtain rfl := Option.some.inj h
          obtain ⟨hb, htable⟩ := secondByte?_iff.mp ⟨low, high, hrow, hrange⟩
          rcases htable with ⟨rfl, ha⟩ | ⟨rfl, ha, hshortest, hsurrogate⟩ |
            ⟨rfl, ha, hshortest, hlast⟩
          · exact ⟨[a, b], rest, rfl, .two ha hb, rfl⟩
          · match rest, hlength, htail with
            | c :: rest, _, htail =>
              exact ⟨[a, b, c], rest, rfl,
                .three ha hb hshortest hsurrogate (htail c (by simp)), rfl⟩
          · match rest, hlength, htail with
            | c :: d :: rest, _, htail =>
              exact ⟨[a, b, c, d], rest, rfl,
                .four ha hb hshortest hlast (htail c (by simp)) (htail d (by simp)), rfl⟩
        next => contradiction
      next => contradiction

theorem characterWidth?_eq_some_iff {n : Nat} :
    characterWidth? t = some n ↔ ∃ c rest, t = c ++ rest ∧ IsCharacter c ∧ c.length = n := by
  constructor
  · exact exists_of_characterWidth?
  · rintro ⟨c, rest, rfl, hc, rfl⟩
    exact characterWidth?_append hc rest

/-! ## Well-formed texts -/

@[simp] theorem isWellFormed_nil : isWellFormed [] := rfl

theorem pieces_character_append (h : IsCharacter c) (t : Text) :
    Text.pieces character (c ++ t) = .found c :: Text.pieces character t := by
  have hbefore : ∀ before before' x, character before x = character before' x := fun _ _ _ => rfl
  obtain ⟨first, tail, rfl, -⟩ := h.exists_cons
  have hread : character none (first :: tail ++ t) = some (first :: tail, tail.length + 1) := by
    rw [character, characterWidth?_append h, Option.map_some, List.take_left, List.length_cons]
  rw [Text.pieces, Text.piecesFrom_of_eq_some (by simp) hread, ← List.length_cons, List.drop_left,
    Text.piecesFrom_before hbefore 0 _ none, Text.pieces]

theorem isWellFormed_append_of_isCharacter (h : IsCharacter c) (t : Text) :
    isWellFormed (c ++ t) = isWellFormed t := by
  rw [isWellFormed, pieces_character_append h, List.all_cons, isWellFormed, Bool.true_and]

theorem exists_isCharacter (h : isWellFormed t) (hne : t ≠ []) :
    ∃ c rest, t = c ++ rest ∧ IsCharacter c ∧ isWellFormed rest := by
  cases hwidth : characterWidth? t with
  | none =>
    have hread : character none t = none := by rw [character, hwidth, Option.map_none]
    obtain ⟨b, rest, rfl⟩ := List.exists_cons_of_ne_nil hne
    rw [isWellFormed, Text.pieces, Text.piecesFrom_cons, hread] at h
    contradiction
  | some n =>
    obtain ⟨c, rest, rfl, hc, -⟩ := characterWidth?_eq_some_iff.mp hwidth
    rw [isWellFormed_append_of_isCharacter hc] at h
    exact ⟨c, rest, rfl, hc, h⟩

/-- To prove a statement of every well-formed text, prove that a character may be put before it. -/
@[elab_as_elim]
theorem isWellFormed_induction {motive : (t : Text) → isWellFormed t → Prop}
    (nil : motive [] isWellFormed_nil)
    (character : ∀ c t (hc : IsCharacter c) (ht : isWellFormed t), motive t ht →
      motive (c ++ t) ((isWellFormed_append_of_isCharacter hc t).trans ht))
    (t : Text) (h : isWellFormed t) : motive t h := by
  induction hlength : t.length using Nat.strongRecOn generalizing t with
  | ind n ih =>
    by_cases hne : t = []
    · subst hne
      exact nil
    · obtain ⟨c, rest, rfl, hc, hrest⟩ := exists_isCharacter h hne
      have hpos := List.length_pos_iff.mpr hc.ne_nil
      rw [List.length_append] at hlength
      exact character c rest hc hrest (ih rest.length (by omega) rest hrest rfl)

/-! ## Strings -/

theorem isCharacter_utf8EncodeChar (ch : Char) : IsCharacter (String.utf8EncodeChar ch) := by
  have hvalid : ch.val.toNat.isValidChar := ch.valid
  rw [Nat.isValidChar] at hvalid
  simp only [String.utf8EncodeChar]
  generalize ch.val.toNat = n at hvalid
  split
  · refine .one ?_
    simp only [UInt8.lt_iff_toNat_lt, UInt8.toNat_ofNat', UInt8.reduceToNat]
    omega
  split
  · refine .two ?_ (Byte.isContinuation_ofNat (by omega) (by omega))
    simp only [UInt8.le_iff_toNat_le, UInt8.toNat_ofNat', UInt8.reduceToNat]
    omega
  split
  · refine .three ?_ (Byte.isContinuation_ofNat (by omega) (by omega)) ?_ ?_
      (Byte.isContinuation_ofNat (by omega) (by omega))
    all_goals
      simp only [← UInt8.toNat_inj, UInt8.le_iff_toNat_le, UInt8.lt_iff_toNat_lt,
        UInt8.toNat_ofNat', UInt8.reduceToNat]
      omega
  · refine .four ?_ (Byte.isContinuation_ofNat (by omega) (by omega)) ?_ ?_
      (Byte.isContinuation_ofNat (by omega) (by omega))
      (Byte.isContinuation_ofNat (by omega) (by omega))
    all_goals
      simp only [← UInt8.toNat_inj, UInt8.le_iff_toNat_le, UInt8.lt_iff_toNat_lt,
        UInt8.toNat_ofNat', UInt8.reduceToNat]
      omega

theorem exists_char {n : Nat} (h : n.isValidChar) : ∃ ch : Char, ch.val.toNat = n := by
  have hn : n < UInt32.size := by
    simp only [Nat.isValidChar, UInt32.size] at h ⊢
    omega
  have hval : (UInt32.ofNat n).toNat = n := UInt32.toNat_ofNat_of_lt' hn
  exact ⟨⟨UInt32.ofNat n, by rwa [UInt32.isValidChar, hval]⟩, hval⟩

theorem IsCharacter.exists_utf8EncodeChar (h : IsCharacter c) :
    ∃ ch : Char, c = String.utf8EncodeChar ch := by
  cases h with
  | @one a ha =>
    simp only [UInt8.lt_iff_toNat_lt, UInt8.reduceToNat] at ha
    obtain ⟨ch, hch⟩ := exists_char (n := a.toNat) (.inl (by omega))
    refine ⟨ch, ?_⟩
    simp (disch := omega) only [String.utf8EncodeChar, hch, if_pos, UInt8.ofNat_toNat]
  | @two a b ha hb =>
    simp only [UInt8.le_iff_toNat_le, UInt8.reduceToNat] at ha
    rw [Byte.isContinuation_iff] at hb
    obtain ⟨ch, hch⟩ := exists_char (n := (a.toNat - 0xC0) * 64 + (b.toNat - 0x80))
      (.inl (by omega))
    refine ⟨ch, ?_⟩
    simp (disch := omega) only [String.utf8EncodeChar, hch, if_pos, if_neg, List.cons.injEq,
      and_true, ← UInt8.toNat_inj, UInt8.toNat_ofNat']
    omega
  | @three a b c ha hb hshortest hsurrogate hc =>
    simp only [← UInt8.toNat_inj, UInt8.le_iff_toNat_le, UInt8.lt_iff_toNat_lt,
      UInt8.reduceToNat] at ha hshortest hsurrogate
    rw [Byte.isContinuation_iff] at hb hc
    have hvalid : Nat.isValidChar
        ((a.toNat - 0xE0) * 4096 + (b.toNat - 0x80) * 64 + (c.toNat - 0x80)) := by
      rw [Nat.isValidChar]
      omega
    obtain ⟨ch, hch⟩ := exists_char hvalid
    refine ⟨ch, ?_⟩
    simp (disch := omega) only [String.utf8EncodeChar, hch, if_pos, if_neg, List.cons.injEq,
      and_true, ← UInt8.toNat_inj, UInt8.toNat_ofNat']
    omega
  | @four a b c d ha hb hshortest hlast hc hd =>
    simp only [← UInt8.toNat_inj, UInt8.le_iff_toNat_le, UInt8.lt_iff_toNat_lt,
      UInt8.reduceToNat] at ha hshortest hlast
    rw [Byte.isContinuation_iff] at hb hc hd
    have hvalid : Nat.isValidChar ((a.toNat - 0xF0) * 262144 + (b.toNat - 0x80) * 4096 +
        (c.toNat - 0x80) * 64 + (d.toNat - 0x80)) := by
      rw [Nat.isValidChar]
      omega
    obtain ⟨ch, hch⟩ := exists_char hvalid
    refine ⟨ch, ?_⟩
    simp (disch := omega) only [String.utf8EncodeChar, hch, if_neg, List.cons.injEq, and_true,
      ← UInt8.toNat_inj, UInt8.toNat_ofNat']
    omega

theorem isCharacter_iff : IsCharacter c ↔ ∃ ch : Char, c = String.utf8EncodeChar ch := by
  constructor
  · exact IsCharacter.exists_utf8EncodeChar
  · rintro ⟨ch, rfl⟩
    exact isCharacter_utf8EncodeChar ch

@[simp] theorem isWellFormed_utf8 (s : String) : isWellFormed (utf8 s) := by
  rw [utf8_eq_flatMap]
  induction s.toList with
  | nil => rfl
  | cons ch chars ih =>
    rwa [List.flatMap_cons, isWellFormed_append_of_isCharacter (isCharacter_utf8EncodeChar ch)]

/-- A text is well formed if it is what a string is written with. -/
theorem isWellFormed_iff : isWellFormed t ↔ ∃ s : String, t = utf8 s := by
  constructor
  · intro h
    induction t, h using isWellFormed_induction with
    | nil => exact ⟨"", rfl⟩
    | character c t hc ht ih =>
      obtain ⟨s, rfl⟩ := ih
      obtain ⟨ch, rfl⟩ := isCharacter_iff.mp hc
      refine ⟨String.ofList (ch :: s.toList), ?_⟩
      rw [utf8_eq_flatMap, utf8_eq_flatMap, String.toList_ofList, List.flatMap_cons]
  · rintro ⟨s, rfl⟩
    exact isWellFormed_utf8 s

/-! ## Cutting at an edge -/

/-- The text does not begin in the middle of a character. -/
def IsEdge (t : Text) : Prop := ∀ b ∈ t.head?, Byte.isContinuation b = false

theorem isEdge_append (h : IsCharacter c) (t : Text) : IsEdge (c ++ t) := by
  obtain ⟨first, tail, rfl, hfirst, -⟩ := h.exists_cons
  simpa [IsEdge] using hfirst

theorem isEdge_of_isWellFormed (h : isWellFormed t) : IsEdge t := by
  induction t, h using isWellFormed_induction with
  | nil => simp [IsEdge]
  | character c t hc ht ih => exact isEdge_append hc t

theorem isWellFormed_append (ht : isWellFormed t) (u : Text) :
    isWellFormed (t ++ u) = isWellFormed u := by
  induction t, ht using isWellFormed_induction with
  | nil => rfl
  | character c t hc ht ih => rw [List.append_assoc, isWellFormed_append_of_isCharacter hc, ih]

/-- Before an edge, no character is left unfinished. -/
theorem isWellFormed_of_append (hedge : IsEdge u) (h : isWellFormed (t ++ u)) :
    isWellFormed t := by
  generalize hv : t ++ u = v at h
  induction v, h using isWellFormed_induction generalizing t with
  | nil => rw [(List.append_eq_nil_iff.mp hv).1, isWellFormed_nil]
  | character c rest hc hrest ih =>
    rcases List.append_eq_append_iff.mp hv with ⟨v, rfl, hu⟩ | ⟨t, rfl, hrest⟩
    · -- The edge lies in the first character or at one of its ends.
      cases t with
      | nil => rfl
      | cons b t =>
        obtain ⟨first, tail, heq, -, htail⟩ := hc.exists_cons
        obtain ⟨rfl, rfl⟩ := List.cons.inj heq
        cases v with
        | nil =>
          have hwhole := isWellFormed_append_of_isCharacter hc []
          rwa [List.append_nil, List.append_nil] at hwhole
        | cons x v =>
          have hx : Byte.isContinuation x = false := hedge x (by rw [hu]; rfl)
          rw [htail x (by simp)] at hx
          contradiction
    · rw [isWellFormed_append_of_isCharacter hc]
      exact ih hrest.symm

/-- A well-formed text may be cut at an edge. -/
theorem isWellFormed_append_iff (hedge : IsEdge u) :
    isWellFormed (t ++ u) ↔ isWellFormed t ∧ isWellFormed u := by
  constructor
  · intro h
    have ht := isWellFormed_of_append hedge h
    rw [isWellFormed_append ht] at h
    exact ⟨ht, h⟩
  · rintro ⟨ht, hu⟩
    rwa [isWellFormed_append ht]

/-! ## ASCII -/

variable {ascii : Text}

theorem isWellFormed_cons {b : UInt8} (hb : b < 0x80) (t : Text) :
    isWellFormed (b :: t) = isWellFormed t :=
  isWellFormed_append_of_isCharacter (.one hb) t

theorem isWellFormed_of_isAscii (h : ascii.IsAscii) : isWellFormed ascii := by
  induction ascii with
  | nil => rfl
  | cons b ascii ih =>
    obtain ⟨hb, hascii⟩ := List.forall_mem_cons.mp h
    rw [isWellFormed_cons hb]
    exact ih hascii

theorem isWellFormed_ascii_append (h : ascii.IsAscii) (t : Text) :
    isWellFormed (ascii ++ t) = isWellFormed t :=
  isWellFormed_append (isWellFormed_of_isAscii h) t

theorem isWellFormed_append_ascii (h : ascii.IsAscii) (t : Text) :
    isWellFormed (t ++ ascii) ↔ isWellFormed t := by
  have hascii := isWellFormed_of_isAscii h
  rw [isWellFormed_append_iff (isEdge_of_isWellFormed hascii)]
  exact and_iff_left hascii

/-- A well-formed text may be cut at a byte of ASCII. -/
theorem isWellFormed_append_cons_iff {b : UInt8} (hb : b < 0x80) :
    isWellFormed (t ++ b :: u) ↔ isWellFormed t ∧ isWellFormed u := by
  have hedge : IsEdge (b :: u) := isEdge_append (.one hb) u
  rw [isWellFormed_append_iff hedge, isWellFormed_cons hb]

section

variable {f : UInt8 → UInt8} (hascii : ∀ b, f b < 0x80 ↔ b < 0x80)
  (hwide : ∀ b, ¬ b < 0x80 → f b = b)
include hascii hwide

theorem isCharacter_map_iff : IsCharacter (c.map f) ↔ IsCharacter c := by
  have hkeep : (∀ b ∈ c, ¬ b < 0x80) → c.map f = c := by
    intro h
    rw [List.map_congr_left fun b hb => hwide b (h b hb), List.map_id']
  constructor
  · intro h
    rcases h.ascii_or_wide with ⟨a, heq, ha⟩ | hbytes
    · obtain ⟨b, rfl, rfl⟩ := List.map_eq_singleton_iff.mp heq
      exact .one ((hascii b).mp ha)
    · rwa [hkeep fun b hb => mt (hascii b).mpr (hbytes _ (List.mem_map_of_mem hb))] at h
  · intro h
    rcases h.ascii_or_wide with ⟨a, rfl, ha⟩ | hbytes
    · exact .one ((hascii a).mpr ha)
    · rwa [hkeep hbytes]

/-- Bytes of ASCII may be exchanged. -/
theorem isWellFormed_map_iff : isWellFormed (t.map f) ↔ isWellFormed t := by
  constructor
  · intro h
    generalize hv : t.map f = v at h
    induction v, h using isWellFormed_induction generalizing t with
    | nil => rw [List.map_eq_nil_iff.mp hv, isWellFormed_nil]
    | character c rest hc hrest ih =>
      obtain ⟨c, t, rfl, rfl, rfl⟩ := List.map_eq_append_iff.mp hv
      rw [isWellFormed_append_of_isCharacter ((isCharacter_map_iff hascii hwide).mp hc)]
      exact ih rfl
  · intro h
    induction t, h using isWellFormed_induction with
    | nil => rfl
    | character c t hc ht ih =>
      rwa [List.map_append,
        isWellFormed_append_of_isCharacter ((isCharacter_map_iff hascii hwide).mpr hc)]

end

theorem isWellFormed_lower : isWellFormed (Text.lower t) ↔ isWellFormed t :=
  isWellFormed_map_iff (fun b => by grind) (fun b => by grind)

/-- The parts of a well-formed text that is cut at bytes of ASCII are well formed. -/
theorem isWellFormed_of_mem_splitOnP {isCut : UInt8 → Bool} (hcut : ∀ b, isCut b → b < 0x80)
    (h : isWellFormed t) {part : Text} (hpart : part ∈ t.splitOnP isCut) : isWellFormed part := by
  induction t using Text.cut_induction isCut with
  | plain t ht =>
    rw [List.splitOnP_eq_singleton ht, List.mem_singleton] at hpart
    exact hpart ▸ h
  | cut t b u hb iht ihu =>
    obtain ⟨ht, hu⟩ := (isWellFormed_append_cons_iff (hcut b hb)).mp h
    rw [List.splitOnP_append_cons t u hb] at hpart
    exact (List.mem_append.mp hpart).elim (iht ht) (ihu hu)

end Utf8

end CatalogEdit
