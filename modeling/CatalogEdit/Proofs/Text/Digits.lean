import CatalogEdit.Text.Basic
import Mathlib.Algebra.Group.Nat.Defs
import Mathlib.Data.List.Basic
import Mathlib.Data.List.Induction

/-!
# Numbers in decimal digits

A number can be written with exactly as many digits as a field has, with zeros in front, or with as
few digits as it takes. Either way the digits give back the number, and a run of digits is the
number it stands for in a field of its own width.

## Main definitions

* `Text.padded` — a number in a given number of digits.

## Main statements

* `Text.digitsValue_padded`, `Text.padded_digitsValue` — fields of digits are numbers.
* `Text.digitsValue_decimal`, `Text.length_decimal_le_iff` — the shortest form of a number.
-/

namespace CatalogEdit

/-- The digit of a number below ten. -/
def Byte.digit (n : Nat) : UInt8 := UInt8.ofNat (0x30 + n)

theorem Byte.isDigit_iff {b : UInt8} : isDigit b ↔ 0x30 ≤ b.toNat ∧ b.toNat ≤ 0x39 := by
  simp only [isDigit, UInt8.le_iff_toNat_le, UInt8.reduceToNat, Bool.and_eq_true,
    decide_eq_true_eq]

theorem Byte.toNat_digit {n : Nat} (h : n < 10) : (digit n).toNat = 0x30 + n := by
  rw [digit, UInt8.toNat_ofNat']
  omega

theorem Byte.isDigit_digit {n : Nat} (h : n < 10) : isDigit (digit n) := by
  rw [isDigit_iff, toNat_digit h]
  omega

theorem Byte.digitValue_digit {n : Nat} (h : n < 10) : digitValue (digit n) = n := by
  rw [digitValue, toNat_digit h]
  omega

theorem Byte.digitValue_lt {b : UInt8} (h : isDigit b) : digitValue b < 10 := by
  have := isDigit_iff.mp h
  unfold digitValue
  omega

theorem Byte.digit_digitValue {b : UInt8} (h : isDigit b) : digit (digitValue b) = b := by
  apply UInt8.toNat_inj.mp
  have := isDigit_iff.mp h
  rw [toNat_digit (digitValue_lt h), digitValue]
  omega

namespace Text

theorem digitsValue_append_singleton (digits : Text) (b : UInt8) :
    digitsValue (digits ++ [b]) = 10 * digitsValue digits + Byte.digitValue b := by
  simp [digitsValue]

/-! ## Fields of a given width -/

/-- The last `width` decimal digits of `n`, with zeros in front. -/
def padded : Nat → Nat → Text
  | 0, _ => []
  | width + 1, n => padded width (n / 10) ++ [Byte.digit (n % 10)]

@[simp] theorem length_padded (width n : Nat) : (padded width n).length = width := by
  induction width generalizing n with
  | zero => rfl
  | succ width ih => simp [padded, ih]

theorem isDigit_of_mem_padded {width n : Nat} {b : UInt8} (h : b ∈ padded width n) :
    Byte.isDigit b := by
  induction width generalizing n with
  | zero => contradiction
  | succ width ih =>
    rcases List.mem_append.mp h with h | h
    · exact ih h
    · obtain rfl := List.mem_singleton.mp h
      exact Byte.isDigit_digit (Nat.mod_lt n (by omega))

/-- A number that fits in a field is read back from it. -/
theorem digitsValue_padded {width n : Nat} (h : n < 10 ^ width) :
    digitsValue (padded width n) = n := by
  induction width generalizing n with
  | zero =>
    obtain rfl : n = 0 := by omega
    rfl
  | succ width ih =>
    have hhigh : n / 10 < 10 ^ width := by
      rw [Nat.pow_succ] at h
      omega
    rw [padded, digitsValue_append_singleton, ih hhigh,
      Byte.digitValue_digit (Nat.mod_lt n (by omega))]
    omega

/-- A run of digits is a field of its own width. -/
theorem padded_digitsValue {digits : Text} (h : ∀ b ∈ digits, Byte.isDigit b) :
    padded digits.length (digitsValue digits) = digits := by
  induction digits using List.reverseRecOn with
  | nil => rfl
  | append_singleton digits b ih =>
    have hdigits : ∀ c ∈ digits, Byte.isDigit c := fun c hc => h c (by simp [hc])
    have hb : Byte.isDigit b := h b (by simp)
    have hlow := Byte.digitValue_lt hb
    have hdiv : (10 * digitsValue digits + Byte.digitValue b) / 10 = digitsValue digits := by omega
    have hmod : (10 * digitsValue digits + Byte.digitValue b) % 10 = Byte.digitValue b := by omega
    rw [List.length_append, List.length_singleton, digitsValue_append_singleton, padded, hdiv, hmod,
      ih hdigits, Byte.digit_digitValue hb]

/-! ## The shortest form -/

theorem toNat_toUInt8_of_isDigit {c : Char} (h : c.isDigit) :
    c.toUInt8.toNat = c.toNat ∧ 0x30 ≤ c.toNat ∧ c.toNat ≤ 0x39 := by
  obtain ⟨hlow, hhigh⟩ := Char.isDigit_iff_toNat.mp h
  have hnat : c.toUInt8.toNat = c.toNat % 256 := rfl
  simp only [Char.reduceToNat] at hlow hhigh
  omega

theorem isDigit_of_mem_decimal {n : Nat} {b : UInt8} (h : b ∈ decimal n) : Byte.isDigit b := by
  obtain ⟨c, hc, rfl⟩ := List.mem_map.mp h
  obtain ⟨hnat, hlow, hhigh⟩ :=
    toNat_toUInt8_of_isDigit (Nat.isDigit_of_mem_toDigits (by omega) (by omega) hc)
  rw [Byte.isDigit_iff]
  omega

theorem decimal_ne_nil (n : Nat) : decimal n ≠ [] := by
  simp [decimal, Nat.toDigits_ne_nil]

theorem length_decimal_le_iff {n k : Nat} (hk : 0 < k) :
    (decimal n).length ≤ k ↔ n < 10 ^ k := by
  rw [decimal, List.length_map, Nat.length_toDigits_le_iff (by omega) hk]

/-- A number is read back from its decimal digits. -/
theorem digitsValue_decimal (n : Nat) : digitsValue (decimal n) = n := by
  have hdigit : ∀ c ∈ Nat.toDigits 10 n, ∀ k : Nat,
      10 * k + Byte.digitValue c.toUInt8 = 10 * k + (c.toNat - '0'.toNat) := by
    intro c hc k
    obtain ⟨hnat, -, -⟩ :=
      toNat_toUInt8_of_isDigit (Nat.isDigit_of_mem_toDigits (by omega) (by omega) hc)
    rw [Byte.digitValue, hnat]
    rfl
  calc digitsValue (decimal n)
      = (Nat.toDigits 10 n).foldl (fun k c => 10 * k + Byte.digitValue c.toUInt8) 0 := by
        rw [digitsValue, decimal, List.foldl_map]
    _ = Nat.ofDigitChars 10 (Nat.toDigits 10 n) 0 :=
        List.foldl_ext _ _ _ fun k c hc => hdigit c hc k
    _ = n := Nat.ofDigitChars_toDigits (by omega) (by omega)

end Text

end CatalogEdit
