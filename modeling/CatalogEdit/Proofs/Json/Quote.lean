import CatalogEdit.Json.Printer
import CatalogEdit.Json.Token
import CatalogEdit.Proofs.Text.Case
import CatalogEdit.Proofs.Text.Utf8

/-!
# Quoted strings are read back

A string is written between quotes, with some bytes escaped. Reading it takes exactly what was
written, whatever comes after the closing quote, and gives back the text if it was well-formed.

## Main definitions

* `Json.Token.partOf` — what a written byte is read as: control characters without a letter of their
  own are written by number.

## Main statements

* `Json.Token.parts?_escape` — a written byte is read as one part.
* `Json.Token.decodeParts?_map_partOf` — the parts of a text decode to the text.
* `Json.Token.at?_quote` — a quoted text is the token of that text.
-/

namespace CatalogEdit.Json.Token

/-! ## Escaped bytes -/

/-- The letter by which a byte is escaped. -/
def letter? (b : UInt8) : Option UInt8 :=
  [(Byte.quote, Byte.quote), (Byte.backslash, Byte.backslash), (0x08, 0x62), (0x0C, 0x66),
    (0x0A, 0x6E), (0x0D, 0x72), (0x09, 0x74)].lookup b

/-- What a written byte is read as. -/
def partOf (b : UInt8) : Part :=
  if (letter? b).isNone && b < 0x20 then .unit b.toNat else .byte b

theorem escape_eq (b : UInt8) :
    escape b = match letter? b with
      | some letter => [Byte.backslash, letter]
      | none => if b < 0x20 then
          utf8 "\\u00" ++ [hexDigit (b.toNat / 16), hexDigit (b.toNat % 16)] else [b] := rfl

theorem escaped?_of_letter? {b letter : UInt8} (h : letter? b = some letter) :
    escaped? letter = some b ∧ letter ≠ 0x75 := by
  have hall : [(Byte.quote, Byte.quote), (Byte.backslash, Byte.backslash), (0x08, 0x62),
      (0x0C, 0x66), (0x0A, 0x6E), (0x0D, 0x72), (0x09, 0x74)].all
        (fun entry => escaped? entry.2 == some entry.1 && entry.2 != 0x75) := by
    decide
  obtain ⟨before, behind, heq, -⟩ := List.lookup_eq_some_iff.mp h
  rw [heq, List.all_append, List.all_cons] at hall
  simp_all

theorem hexValue?_hexDigit {n : Nat} (h : n < 16) : Byte.hexValue? (hexDigit n) = some n := by
  revert h n
  decide

theorem codeUnit?_hexDigit (b : UInt8) :
    codeUnit? 0x30 0x30 (hexDigit (b.toNat / 16)) (hexDigit (b.toNat % 16)) = some b.toNat := by
  have hzero : Byte.hexValue? 0x30 = some 0 := by decide
  have hb : b.toNat < 256 := b.toNat_lt
  simp only [codeUnit?, hzero, hexValue?_hexDigit (n := b.toNat / 16) (by omega),
    hexValue?_hexDigit (n := b.toNat % 16) (by omega), Option.bind_eq_bind, Option.bind_some,
    Option.pure_def, Option.some.injEq]
  omega

theorem ne_of_letter?_eq_none {b : UInt8} (h : letter? b = none) :
    b ≠ Byte.quote ∧ b ≠ Byte.backslash := by
  constructor <;> rintro rfl <;> contradiction

/-! ## Reading what was escaped -/

theorem parts?_number (a b c d : UInt8) (t : Text) {n : Nat} (h : codeUnit? a b c d = some n) :
    parts? (Byte.backslash :: 0x75 :: a :: b :: c :: d :: t) =
      (parts? t).map fun (parts, width) => (.unit n :: parts, width + 6) := by
  refine (parts?.eq_3 a b c d t).trans ?_
  rw [h]
  cases parts? t <;> rfl

theorem parts?_letter {e b : UInt8} (t : Text) (h : escaped? e = some b) (hne : e ≠ 0x75) :
    parts? (Byte.backslash :: e :: t) =
      (parts? t).map fun (parts, width) => (.byte b :: parts, width + 2) := by
  refine (parts?.eq_4 e t fun _ _ _ _ _ he => absurd he hne).trans ?_
  rw [h]
  cases parts? t <;> rfl

theorem parts?_byte {b : UInt8} (t : Text) (hquote : b ≠ Byte.quote)
    (hbackslash : b ≠ Byte.backslash) (hcontrol : ¬ b < 0x20) :
    parts? (b :: t) = (parts? t).map fun (parts, width) => (.byte b :: parts, width + 1) := by
  refine (parts?.eq_5 b t (fun h => hquote h) (fun _ _ _ _ _ h => absurd h hbackslash)
    fun _ _ h => absurd h hbackslash).trans ?_
  simp [hcontrol, hbackslash]

/-- A written byte is read as one part, and the bytes it was written with are taken. -/
theorem parts?_escape (b : UInt8) (t : Text) :
    parts? (escape b ++ t) =
      (parts? t).map fun (parts, width) => (partOf b :: parts, width + (escape b).length) := by
  rw [escape_eq]
  cases hletter : letter? b with
  | some letter =>
    obtain ⟨hescaped, hne⟩ := escaped?_of_letter? hletter
    have hpart : partOf b = .byte b := by simp [partOf, hletter]
    rw [hpart]
    exact parts?_letter t hescaped hne
  | none =>
    obtain ⟨hquote, hbackslash⟩ := ne_of_letter?_eq_none hletter
    by_cases hcontrol : b < 0x20
    · have hpart : partOf b = .unit b.toNat := by simp [partOf, hletter, hcontrol]
      simp only [hcontrol, if_true, hpart]
      exact parts?_number _ _ _ _ t (codeUnit?_hexDigit b)
    · have hpart : partOf b = .byte b := by simp [partOf, hcontrol]
      simp only [hcontrol, if_false, hpart]
      exact parts?_byte t hquote hbackslash hcontrol

/-- A written text is read up to the closing quote. -/
theorem parts?_flatMap_escape (t rest : Text) :
    parts? (t.flatMap escape ++ Byte.quote :: rest) =
      some (t.map partOf, (t.flatMap escape).length + 1) := by
  induction t with
  | nil => rfl
  | cons b t ih =>
    rw [List.flatMap_cons, List.append_assoc, parts?_escape, ih]
    simp only [Option.map_some, List.map_cons, List.length_append]
    congr 2
    omega

/-! ## Decoding the parts -/

/-- A number below that of the space is no surrogate. -/
theorem decodeParts?_unit {n : Nat} (h : n < 0x20) (parts : List Part) :
    decodeParts? (.unit n :: parts) = (decodeParts? parts).map (encodeCodePoint n ++ ·) := by
  have hhigh : isHighSurrogate n = false := by simp [isHighSurrogate]; omega
  have hlow : isLowSurrogate n = false := by simp [isLowSurrogate]; omega
  cases parts with
  | nil => simp [decodeParts?, hhigh, hlow]
  | cons part parts => cases part <;> simp [decodeParts?, hhigh, hlow]

theorem encodeCodePoint_toNat {b : UInt8} : b < 0x20 → encodeCodePoint b.toNat = [b] :=
  Byte.forall_of_fin (p := fun b => b < 0x20 → encodeCodePoint b.toNat = [b]) (by decide +kernel) b

theorem decodeParts?_map_partOf (t : Text) : decodeParts? (t.map partOf) = some t := by
  induction t with
  | nil => rfl
  | cons b t ih =>
    rw [List.map_cons, partOf]
    split
    next h =>
      have hcontrol : b < 0x20 := of_decide_eq_true (Bool.and_eq_true_iff.mp h).2
      rw [decodeParts?_unit (by simpa using UInt8.lt_iff_toNat_lt.mp hcontrol), ih,
        encodeCodePoint_toNat hcontrol]
      rfl
    next => rw [decodeParts?, ih]; rfl

/-- A quoted text is the token of that text, whatever comes after it. -/
theorem at?_quote {t : Text} (h : Utf8.isWellFormed t) (rest : Text) :
    at? (quote t ++ rest) = some (.string t, (quote t).length) := by
  have hquote : quote t = Byte.quote :: (t.flatMap escape ++ [Byte.quote]) := by
    rw [quote, Utf8.repair_of_isWellFormed h]
    rfl
  have hstring : at? (quote t ++ rest) = stringAfter? (t.flatMap escape ++ Byte.quote :: rest) := by
    rw [hquote, List.cons_append, List.append_assoc]
    rfl
  rw [hstring, stringAfter?, parts?_flatMap_escape, hquote]
  simp [decodeParts?_map_partOf, h]

end CatalogEdit.Json.Token
