import CatalogEdit.Number.Numeral
import Mathlib.Algebra.Group.Nat.Defs
import Mathlib.Order.Monotone.Basic

/-!
# Finite and whole floating-point numbers

A value that is a significand of 53 bits, shifted by some number of places, is rounded to itself.
Every whole number below `2 ^ 53` is such a value, so it can be written as a floating-point number
and read back as the same integer; no larger one is ever read back as one of these. Numerals whose
value is in range have a finite one.

## Main statements

* `Binary64.magnitudeOfRatio_exact` — a value of at most 53 bits is not changed by rounding.
* `Binary64.toInt?_ofInt` — a whole number below `2 ^ 53` is read back.
* `Binary64.le_natAbs_of_toInt?_ofInt` — a whole number from `2 ^ 53` on is not rounded below that.
* `Binary64.toInt?_eq_some_iff` — which integer a number is equal to, in units.
* `Binary64.unitsOf_strictMono` — magnitudes are ordered like the values they stand for.
* `Numeral.isFinite_of_value?` — the value of a numeral is a finite number.
-/

namespace CatalogEdit

namespace Binary64

/-! ## Significand and shift -/

/-- The powers in the definitions are powers of natural numbers like all others. -/
theorem two_pow_eq (e : Nat) : Nat.pow 2 e = 2 ^ e := rfl

/-- The magnitude of a normal number, or of a number that is not shifted, splits into its shift
and its significand. -/
theorem unitsOf_shift {shift significand : Nat} (hhigh : significand < 2 ^ 53)
    (hlow : shift = 0 ∨ 2 ^ 52 ≤ significand) :
    unitsOf (shift * 2 ^ 52 + significand) = significand * 2 ^ shift := by
  have hshift : (shift * 2 ^ 52 + significand) / 2 ^ 52 - 1 = shift := by omega
  simp only [unitsOf, two_pow_eq, hshift, Nat.add_sub_cancel_left]

theorem roundEven_mul_self (n : Nat) {den : Nat} (h : 0 < den) : roundEven (n * den) den = n := by
  simp [roundEven, Nat.mul_div_cancel n h, h]

theorem log2_mul_two_pow {n : Nat} (shift : Nat) (h : n ≠ 0) :
    (n * 2 ^ shift).log2 = n.log2 + shift := by
  have hpos : n * 2 ^ shift ≠ 0 := Nat.mul_ne_zero h (Nat.ne_of_gt (Nat.two_pow_pos shift))
  refine (Nat.log2_eq_iff hpos).mpr ⟨?_, ?_⟩
  · rw [Nat.pow_add]
    exact Nat.mul_le_mul_right _ (Nat.log2_self_le h)
  · rw [show n.log2 + shift + 1 = n.log2 + 1 + shift by omega, Nat.pow_add]
    exact Nat.mul_lt_mul_of_pos_right Nat.lt_log2_self (Nat.two_pow_pos shift)

/-- The shift that rounding chooses for a value of at most 53 bits is the one it has. -/
theorem log2_shifted {shift significand : Nat} (hhigh : significand < 2 ^ 53)
    (hlow : shift = 0 ∨ 2 ^ 52 ≤ significand) :
    (significand * 2 ^ shift).log2 - 52 = shift := by
  by_cases hpos : significand = 0
  · subst hpos
    have hzero : shift = 0 := by omega
    simp [hzero]
  · have hbits : significand.log2 < 53 := (Nat.log2_lt hpos).mpr hhigh
    rw [log2_mul_two_pow shift hpos]
    rcases hlow with rfl | hlow
    · omega
    · have : 52 ≤ significand.log2 := (Nat.le_log2 hpos).mpr hlow
      omega

/-- A fraction whose value is a significand of at most 53 bits, shifted, is rounded to it. -/
theorem magnitudeOfRatio_exact {num den shift significand : Nat} (hden : 0 < den)
    (hhigh : significand < 2 ^ 53) (hlow : shift = 0 ∨ 2 ^ 52 ≤ significand)
    (h : num * unitsOfOne = significand * 2 ^ shift * den) :
    magnitudeOfRatio num den = shift * 2 ^ 52 + significand := by
  have hround : significand * 2 ^ shift * den = significand * (den * 2 ^ shift) := by
    rw [Nat.mul_assoc, Nat.mul_comm (2 ^ shift)]
  simp only [magnitudeOfRatio, h]
  rw [Nat.mul_div_cancel _ hden, log2_shifted hhigh hlow, two_pow_eq, two_pow_eq, hround,
    roundEven_mul_self _ (Nat.mul_pos hden (Nat.two_pow_pos shift))]

/-! ## Whole numbers -/

theorem two_pow_split {e n : Nat} (h : e ≤ n) : Nat.pow 2 n = 2 ^ e * 2 ^ (n - e) := by
  rw [two_pow_eq, ← Nat.pow_add]
  congr 1
  omega

theorem unitsOfOne_eq {e : Nat} (h : e ≤ 1074) : unitsOfOne = 2 ^ e * 2 ^ (1074 - e) := by
  unfold unitsOfOne
  -- The power is split, not computed.
  generalize 1074 = n at h ⊢
  exact two_pow_split h

theorem unitsOfOne_pos : 0 < unitsOfOne := by
  unfold unitsOfOne
  generalize 1074 = n
  exact Nat.two_pow_pos n

/-- A whole number below `2 ^ 53` has 53 bits when it is shifted until its first bit is in place. -/
theorem whole_bits {n : Nat} (hpos : n ≠ 0) (h : n < 2 ^ 53) :
    n.log2 ≤ 52 ∧ 2 ^ 52 ≤ n * 2 ^ (52 - n.log2) ∧ n * 2 ^ (52 - n.log2) < 2 ^ 53 := by
  have hbits : n.log2 < 53 := (Nat.log2_lt hpos).mpr h
  have hfull : 2 ^ 52 = 2 ^ n.log2 * 2 ^ (52 - n.log2) :=
    two_pow_split (show n.log2 ≤ 52 by omega)
  refine ⟨by omega, ?_, ?_⟩
  · rw [hfull]
    exact Nat.mul_le_mul_right _ (Nat.log2_self_le hpos)
  · calc n * 2 ^ (52 - n.log2) < 2 ^ (n.log2 + 1) * 2 ^ (52 - n.log2) :=
          Nat.mul_lt_mul_of_pos_right Nat.lt_log2_self (Nat.two_pow_pos _)
      _ = 2 ^ 53 := by
          rw [← Nat.pow_add]
          congr 1
          omega

/-- In units, a whole number below `2 ^ 53` is a significand shifted by many places. -/
theorem exists_shift_eq_whole {n : Nat} (h : n < 2 ^ 53) :
    ∃ shift significand, significand < 2 ^ 53 ∧ (shift = 0 ∨ 2 ^ 52 ≤ significand) ∧
      shift ≤ 1074 ∧ n * unitsOfOne = significand * 2 ^ shift := by
  by_cases hpos : n = 0
  · exact ⟨0, 0, by decide, .inl rfl, by omega, by simp [hpos]⟩
  · obtain ⟨hbits, hlow, hhigh⟩ := whole_bits hpos h
    have hunits := unitsOfOne_eq (e := 52 - n.log2) (by omega)
    refine ⟨1074 - (52 - n.log2), n * 2 ^ (52 - n.log2), hhigh, .inr hlow, by omega, ?_⟩
    rw [hunits, Nat.mul_assoc]

/-- What `ofInt` makes of a whole number below `2 ^ 53`: no bit of it is lost. -/
theorem units_ofInt {n : Int} (h : n.natAbs < 2 ^ 53) :
    (ofInt n).units = n.natAbs * unitsOfOne ∧ (ofInt n).isFinite := by
  obtain ⟨shift, significand, hhigh, hlow, hshift, hunits⟩ := exists_shift_eq_whole h
  have hmagnitude : magnitudeOfRatio n.natAbs 1 = shift * 2 ^ 52 + significand :=
    magnitudeOfRatio_exact Nat.one_pos hhigh hlow (by rw [hunits, Nat.mul_one])
  have hlt : shift * 2 ^ 52 + significand < topMagnitude := by
    simp only [topMagnitude, two_pow_eq]
    omega
  have hofInt : (ofInt n).magnitude = shift * 2 ^ 52 + significand := by
    simp only [ofInt, ofRatio, hmagnitude, topMagnitude, two_pow_eq] at hlt ⊢
    omega
  refine ⟨?_, ?_⟩
  · rw [units, hofInt, unitsOf_shift hhigh hlow, hunits]
  · simpa [isFinite, hofInt] using hlt

/-- An integer given by its sign and its absolute value. -/
theorem signed_eq_iff {negative : Bool} {q : Nat} {n : Int} :
    (if negative then -(q : Int) else q) = n ↔
      n.natAbs = q ∧ (n < 0 → negative) ∧ (0 < n → negative = false) := by
  cases negative with
  | false =>
    simp only [Bool.false_eq_true, if_false, imp_false, implies_true, and_true]
    omega
  | true =>
    simp only [if_true, implies_true, true_and, Bool.true_eq_false, imp_false]
    omega

/-- The integer a number is equal to, as a statement about its units. -/
theorem toInt?_eq_some_iff {x : Binary64} {n : Int} :
    x.toInt? = some n ↔
      x.isFinite ∧ x.units = n.natAbs * unitsOfOne ∧
        (n < 0 → x.negative) ∧ (0 < n → x.negative = false) := by
  have hunit := unitsOfOne_pos
  simp only [toInt?]
  constructor
  · intro h
    split at h
    next hwhole =>
      simp only [Bool.and_eq_true, beq_iff_eq] at hwhole
      obtain ⟨hfinite, hdvd⟩ := hwhole
      obtain ⟨hn, hsign⟩ := signed_eq_iff.mp (Option.some.inj h)
      exact ⟨hfinite, by rw [hn, Nat.div_mul_cancel (Nat.dvd_of_mod_eq_zero hdvd)], hsign⟩
    next => contradiction
  · rintro ⟨hfinite, hunits, hsign⟩
    have hmod : x.units % unitsOfOne = 0 := by rw [hunits, Nat.mul_mod_left]
    have hdiv : x.units / unitsOfOne = n.natAbs := by rw [hunits, Nat.mul_div_cancel _ hunit]
    simp only [hfinite, hmod, beq_self_eq_true, Bool.and_self, if_true, Option.some.injEq]
    exact signed_eq_iff.mpr ⟨hdiv.symm, hsign⟩

/-- A whole number below `2 ^ 53` is read back from the floating-point number it is written as. -/
theorem toInt?_ofInt {n : Int} (h : n.natAbs < 2 ^ 53) : (ofInt n).toInt? = some n := by
  obtain ⟨hunits, hfinite⟩ := units_ofInt h
  refine toInt?_eq_some_iff.mpr ⟨hfinite, hunits, fun hn => ?_, fun hn => ?_⟩
  · simpa [ofInt, ofRatio] using hn
  · simp only [ofInt, ofRatio, decide_eq_false_iff_not]
    omega

/-! ## Large whole numbers -/

theorem le_roundEven (num den : Nat) : num / den ≤ roundEven num den := by
  simp only [roundEven]
  split <;> omega

/-- From `2 ^ 52` units on, rounding keeps the leading bit where it is or moves it up. -/
theorem le_magnitudeOfRatio {num e : Nat} (h : 2 ^ (e + 52) ≤ num * unitsOfOne) :
    e * 2 ^ 52 + 2 ^ 52 ≤ magnitudeOfRatio num 1 := by
  have hpos : num * unitsOfOne ≠ 0 := Nat.ne_of_gt (Nat.lt_of_lt_of_le (Nat.two_pow_pos _) h)
  have hlog : e + 52 ≤ (num * unitsOfOne).log2 := (Nat.le_log2 hpos).mpr h
  simp only [magnitudeOfRatio, Nat.div_one, Nat.one_mul, two_pow_eq]
  generalize hshift : (num * unitsOfOne).log2 - 52 = shift
  have hsignificand : 2 ^ 52 ≤ num * unitsOfOne / 2 ^ shift := by
    refine (Nat.le_div_iff_mul_le (Nat.two_pow_pos shift)).mpr ?_
    rw [← Nat.pow_add, show 52 + shift = (num * unitsOfOne).log2 by omega]
    exact Nat.log2_self_le hpos
  have hround := le_roundEven (num * unitsOfOne) (2 ^ shift)
  have hle : e ≤ shift := by omega
  exact Nat.add_le_add (Nat.mul_le_mul_right _ hle) (Nat.le_trans hsignificand hround)

/-- A magnitude from that of `2 ^ (e + 52)` on has at least so many units. -/
theorem le_unitsOf {magnitude e : Nat} (h : e * 2 ^ 52 + 2 ^ 52 ≤ magnitude) :
    2 ^ (e + 52) ≤ unitsOf magnitude := by
  simp only [unitsOf, two_pow_eq]
  generalize hshift : magnitude / 2 ^ 52 - 1 = shift
  have hle : e ≤ shift := by omega
  have hsignificand : 2 ^ 52 ≤ magnitude - shift * 2 ^ 52 := by omega
  rw [Nat.pow_add, Nat.mul_comm]
  exact Nat.mul_le_mul hsignificand (Nat.pow_le_pow_right (by decide) hle)

/-- Rounding takes no whole number from `2 ^ 53` on to a smaller one. -/
theorem le_natAbs_of_toInt?_ofInt {n m : Int} (hn : 2 ^ 53 ≤ n.natAbs)
    (h : (ofInt n).toInt? = some m) : 2 ^ 53 ≤ m.natAbs := by
  obtain ⟨hfinite, hunits, -⟩ := toInt?_eq_some_iff.mp h
  -- Only that the unit is some power of two matters.
  obtain ⟨k, hk⟩ : ∃ k, unitsOfOne = 2 ^ k :=
    ⟨1074 - 0, by rw [unitsOfOne_eq (Nat.zero_le _), Nat.pow_zero, Nat.one_mul]⟩
  have hplaces : k + 1 + 52 = 53 + k := by omega
  have hscale : 2 ^ (k + 1 + 52) = 2 ^ 53 * unitsOfOne := by rw [hplaces, Nat.pow_add, hk]
  have hmagnitude : (k + 1) * 2 ^ 52 + 2 ^ 52 ≤ magnitudeOfRatio n.natAbs 1 :=
    le_magnitudeOfRatio (hscale ▸ Nat.mul_le_mul_right _ hn)
  have hkept : (ofInt n).magnitude = magnitudeOfRatio n.natAbs 1 := by
    have hlt := of_decide_eq_true hfinite
    simp only [ofInt, ofRatio] at hlt ⊢
    omega
  refine Nat.le_of_mul_le_mul_right ?_ unitsOfOne_pos
  rw [← hscale, ← hunits, units, hkept]
  exact le_unitsOf hmagnitude

/-! ## Order -/

/-- One more than a magnitude has more units, whether or not the shift changes. -/
theorem unitsOf_lt_succ (magnitude : Nat) : unitsOf magnitude < unitsOf (magnitude + 1) := by
  simp only [unitsOf, two_pow_eq]
  generalize hshift : magnitude / 2 ^ 52 - 1 = shift
  have hpow := Nat.two_pow_pos shift
  by_cases hsame : (magnitude + 1) / 2 ^ 52 - 1 = shift
  · have hnext : magnitude + 1 - shift * 2 ^ 52 = magnitude - shift * 2 ^ 52 + 1 := by omega
    rw [hsame, hnext, Nat.succ_mul]
    omega
  · have hnext : (magnitude + 1) / 2 ^ 52 - 1 = shift + 1 := by omega
    have hbelow : magnitude - shift * 2 ^ 52 = 2 ^ 53 - 1 := by omega
    have habove : magnitude + 1 - (shift + 1) * 2 ^ 52 = 2 ^ 52 := by omega
    rw [hnext, hbelow, habove, Nat.pow_succ 2 shift]
    omega

theorem unitsOf_strictMono : StrictMono unitsOf := strictMono_nat_of_lt_succ unitsOf_lt_succ

theorem units_one : one.units = unitsOfOne := by
  have hsplit : one.magnitude = 1022 * 2 ^ 52 + 2 ^ 52 := rfl
  rw [units, hsplit, unitsOf_shift (by decide) (.inr (Nat.le_refl _)),
    unitsOfOne_eq (e := 52) (by decide)]

/-! ## Finite numbers -/

theorem isFinite_of_ofRatio? {negative : Bool} {num den : Nat} {x : Binary64}
    (h : ofRatio? negative num den = some x) : x.isFinite := by
  simp only [ofRatio?] at h
  split at h
  next => contradiction
  next hrange =>
    obtain rfl := Option.some.inj h
    simp only [overflows, Bool.or_eq_true, decide_eq_true_eq, not_or, Nat.not_le] at hrange
    exact decide_eq_true (Nat.lt_of_le_of_lt (Nat.min_le_left _ _) hrange.1)

@[simp] theorem isFinite_signed (negative : Bool) (x : Binary64) :
    (x.signed negative).isFinite = x.isFinite := rfl

@[simp] theorem isFinite_abs (x : Binary64) : x.abs.isFinite = x.isFinite := rfl

@[simp] theorem units_abs (x : Binary64) : x.abs.units = x.units := rfl

end Binary64

theorem Numeral.isFinite_of_value? {n : Numeral} {x : Binary64} (h : n.value? = some x) :
    x.isFinite :=
  Binary64.isFinite_of_ofRatio? h

end CatalogEdit
