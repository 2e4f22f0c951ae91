import CatalogEdit.Proofs.Number.Value
import Mathlib.Tactic.Ring

/-!
# Rounding to the nearest number

A fraction is rounded to the floating-point number whose neighbours are not nearer to it. Halfway
between two of them the one with the even last bit is taken, so there is one answer for every
fraction. Whole numbers have neighbours at a distance that depends on their number of bits alone,
but below a power of two the distance is half as large.

## Main definitions

* `Binary64.RoundsTo` — a value lies between the middles of a number and its neighbours.
* `Binary64.IsNearestWhole` — the same for a whole number and a fraction.

## Main statements

* `Binary64.magnitudeOfRatio_eq_iff` — a fraction is rounded to the one number that it rounds to.
* `Binary64.roundsTo_iff_isNearestWhole` — which fractions are rounded to a whole number.
* `Binary64.IsNearestWhole.eq_of_dvd`, `Binary64.IsNearestWhole.le_of_not_dvd` — what is rounded to
  a whole number is that number, or it has many digits.
-/

namespace CatalogEdit.Binary64

variable {value num den m m' q : Nat}

/-! ## Neighbours -/

/-- `value / den` units lie between the middles of the number of magnitude `m` and its neighbours,
and on a middle only if the last bit of `m` is zero. -/
structure RoundsTo (value den m : Nat) : Prop where
  above : 2 * value + m % 2 ≤ (unitsOf m + unitsOf (m + 1)) * den
  below : ∀ k, k + 1 = m → (unitsOf k + unitsOf m) * den + m % 2 ≤ 2 * value

/-- A value from a number on is above the middle below that number. -/
theorem below_of_le (hden : 0 < den) (h : unitsOf m * den ≤ value) {k : Nat} (hk : k + 1 = m) :
    (unitsOf k + unitsOf m) * den + m % 2 ≤ 2 * value := by
  have hlt : unitsOf k + 1 ≤ unitsOf m := hk ▸ unitsOf_lt_succ k
  have hstep := Nat.mul_le_mul_right den hlt
  rw [Nat.add_mul] at hstep ⊢
  omega

/-- A value below a number is below the middle above that number. -/
theorem above_of_lt (h : value < unitsOf m * den) :
    2 * value + m % 2 ≤ (unitsOf m + unitsOf (m + 1)) * den := by
  have hstep := Nat.mul_le_mul_right den (unitsOf_lt_succ m).le
  rw [Nat.add_mul]
  omega

/-- No value rounds to two numbers. -/
theorem RoundsTo.not_lt (hden : 0 < den) (h : RoundsTo value den m) (h' : RoundsTo value den m') :
    ¬ m < m' := by
  intro hlt
  obtain ⟨k, rfl⟩ : ∃ k, m' = k + 1 := ⟨m' - 1, by omega⟩
  have hle := (h'.below k rfl).trans ((Nat.le_add_right _ _).trans h.above)
  rcases Nat.eq_or_lt_of_le (Nat.le_of_lt_succ hlt) with rfl | hfar
  · -- Of two neighbours one has an odd last bit, so their middle does not round to it.
    have hbelow := h'.below m rfl
    have habove := h.above
    omega
  · have hunits : unitsOf m + unitsOf (m + 1) < unitsOf k + unitsOf (k + 1) :=
      Nat.add_lt_add (unitsOf_strictMono hfar) (unitsOf_strictMono (Nat.succ_lt_succ hfar))
    have hmiddle := Nat.mul_lt_mul_of_pos_right hunits hden
    omega

theorem RoundsTo.unique (hden : 0 < den) (h : RoundsTo value den m) (h' : RoundsTo value den m') :
    m = m' :=
  Nat.le_antisymm (Nat.not_lt.mp (h'.not_lt hden h)) (Nat.not_lt.mp (h.not_lt hden h'))

/-! ## Rounding -/

/-- The nearest natural number is found below, up to the middle, or above. -/
theorem roundEven_cases (num : Nat) (hden : 0 < den) :
    (roundEven num den = num / den ∧ num / den * den ≤ num ∧
      2 * num + num / den % 2 ≤ (2 * (num / den) + 1) * den) ∨
    (roundEven num den = num / den + 1 ∧ num < (num / den + 1) * den ∧
      (2 * (num / den) + 1) * den + (num / den + 1) % 2 ≤ 2 * num) := by
  have hdiv := Nat.div_add_mod num den
  have hmod := Nat.mod_lt num hden
  simp only [roundEven]
  generalize num / den = below at *
  generalize num % den = left at *
  have hbelow : below * den = den * below := Nat.mul_comm below den
  have hmiddle : (2 * below + 1) * den = 2 * (den * below) + den := by ring
  have habove : (below + 1) * den = den * below + den := by ring
  rw [hbelow, hmiddle, habove]
  split
  next hdown =>
    simp only [Bool.or_eq_true, Bool.and_eq_true, decide_eq_true_eq, beq_iff_eq] at hdown
    exact .inl ⟨rfl, by omega, by omega⟩
  next hup =>
    simp only [Bool.or_eq_true, Bool.and_eq_true, decide_eq_true_eq, beq_iff_eq] at hup
    exact .inr ⟨rfl, by omega, by omega⟩

/-- The magnitude of a significand that may have been rounded up to one bit more. -/
theorem unitsOf_shift_le {shift significand : Nat} (hhigh : significand ≤ 2 ^ 53)
    (hlow : shift = 0 ∨ 2 ^ 52 ≤ significand) :
    unitsOf (shift * 2 ^ 52 + significand) = significand * 2 ^ shift := by
  rcases Nat.lt_or_eq_of_le hhigh with hlt | rfl
  · exact unitsOf_shift hlt hlow
  · have hcarry : shift * 2 ^ 52 + 2 ^ 53 = (shift + 1) * 2 ^ 52 + 2 ^ 52 := by ring
    rw [hcarry, unitsOf_shift (by decide) (.inr le_rfl)]
    ring

/-- The shift that rounding chooses leaves a significand of 53 bits, or of fewer if nothing is
shifted. -/
theorem significand_bounds (value den : Nat) :
    let shift := Nat.log2 (value / den) - 52
    value / (den * 2 ^ shift) < 2 ^ 53 ∧ (shift = 0 ∨ 2 ^ 52 ≤ value / (den * 2 ^ shift)) := by
  intro shift
  rw [← Nat.div_div_eq_div_mul]
  by_cases hzero : value / den = 0
  · simp [hzero, shift]
  · have hpos := Nat.two_pow_pos shift
    constructor
    · rw [Nat.div_lt_iff_lt_mul hpos, ← Nat.pow_add]
      exact (Nat.log2_lt hzero).mp (by omega)
    · by_cases hshift : shift = 0
      · exact .inl hshift
      · rw [Nat.le_div_iff_mul_le hpos, ← Nat.pow_add]
        exact .inr ((Nat.le_log2 hzero).mp (by omega))

theorem roundsTo_magnitudeOfRatio (num : Nat) (hden : 0 < den) :
    RoundsTo (num * unitsOfOne) den (magnitudeOfRatio num den) := by
  have hbounds := significand_bounds (num * unitsOfOne) den
  simp only [magnitudeOfRatio, two_pow_eq] at hbounds ⊢
  generalize num * unitsOfOne = value at *
  generalize Nat.log2 (value / den) - 52 = shift at *
  have hscale : 0 < den * 2 ^ shift := Nat.mul_pos hden (Nat.two_pow_pos shift)
  obtain ⟨hhigh, hlow⟩ := hbounds
  have hcases := roundEven_cases value hscale
  generalize value / (den * 2 ^ shift) = significand at *
  have hunits := unitsOf_shift_le hhigh.le hlow
  have hnext : unitsOf (shift * 2 ^ 52 + (significand + 1)) = (significand + 1) * 2 ^ shift :=
    unitsOf_shift_le hhigh (hlow.imp_right (Nat.le_succ_of_le ·))
  have hmiddle : (significand * 2 ^ shift + (significand + 1) * 2 ^ shift) * den =
      (2 * significand + 1) * (den * 2 ^ shift) := by
    ring
  rcases hcases with ⟨hround, hdown, habove⟩ | ⟨hround, hup, hbelow⟩
  · have hlast : (shift * 2 ^ 52 + significand) % 2 = significand % 2 := by omega
    rw [hround]
    constructor
    · rw [Nat.add_assoc, hunits, hnext, hmiddle, hlast]
      exact habove
    · refine fun k => below_of_le hden ?_
      rwa [hunits, Nat.mul_assoc, Nat.mul_comm (2 ^ shift)]
  · have hlast : (shift * 2 ^ 52 + (significand + 1)) % 2 = (significand + 1) % 2 := by omega
    rw [hround]
    constructor
    · refine above_of_lt ?_
      rwa [hnext, Nat.mul_assoc, Nat.mul_comm (2 ^ shift)]
    · intro k hk
      obtain rfl : k = shift * 2 ^ 52 + significand := by omega
      rw [hunits, hnext, hmiddle, hlast]
      exact hbelow

/-- A fraction is rounded to the one magnitude that it rounds to. -/
theorem magnitudeOfRatio_eq_iff (num : Nat) (hden : 0 < den) :
    magnitudeOfRatio num den = m ↔ RoundsTo (num * unitsOfOne) den m := by
  have h := roundsTo_magnitudeOfRatio num hden
  exact ⟨fun heq => heq ▸ h, h.unique hden⟩

/-! ## Whole numbers -/

/-- How many halves of the distance to the next larger number go into one, for a whole number `q`
below `2 ^ 53`. -/
def halvesAbove (q : Nat) : Nat := 2 ^ (53 - q.log2)

/-- The same for the next smaller number; below a power of two the distance is half as large. -/
def halvesBelow (q : Nat) : Nat := if q = 2 ^ q.log2 then 2 * halvesAbove q else halvesAbove q

/-- The last of the 53 bits of a whole number. -/
def lastBit (q : Nat) : Nat := q * 2 ^ (52 - q.log2) % 2

/-- No floating-point number is nearer to `num / den` than the whole number `q`: the fraction lies
between the middles of `q` and its neighbours, and on a middle only if the last bit of `q` is zero.
The neighbours of zero are out of range. -/
structure IsNearestWhole (num den q : Nat) : Prop where
  zero : q = 0 → num = 0
  above : num * halvesAbove q + lastBit q ≤ (q * halvesAbove q + 1) * den
  below : q * halvesBelow q * den + lastBit q ≤ num * halvesBelow q + den

theorem lastBit_le_one (q : Nat) : lastBit q ≤ 1 := Nat.le_of_lt_succ (Nat.mod_lt _ Nat.two_pos)

theorem halvesAbove_eq (hq : q < 2 ^ 53) : halvesAbove q = 2 * 2 ^ (52 - q.log2) := by
  have hbits : q.log2 ≤ 52 := by
    by_cases hpos : q = 0
    · simp [hpos]
    · exact (whole_bits hpos hq).1
  rw [halvesAbove, ← Nat.pow_succ']
  congr 1
  omega

theorem two_le_halvesAbove (hq : q < 2 ^ 53) : 2 ≤ halvesAbove q := by
  rw [halvesAbove_eq hq]
  exact Nat.le_mul_of_pos_right 2 (Nat.two_pow_pos _)

theorem halvesAbove_le_halvesBelow (q : Nat) : halvesAbove q ≤ halvesBelow q := by
  rw [halvesBelow]
  split <;> omega

theorem two_pow_le_mul_halvesAbove (hpos : q ≠ 0) (hq : q < 2 ^ 53) :
    2 ^ 53 ≤ q * halvesAbove q := by
  rw [halvesAbove_eq hq, Nat.mul_left_comm]
  exact Nat.mul_le_mul_left 2 (whole_bits hpos hq).2.1

/-- The first bit of a power of two is its only one. -/
theorem mul_two_pow_eq_iff (hpos : q ≠ 0) (hq : q < 2 ^ 53) :
    q * 2 ^ (52 - q.log2) = 2 ^ 52 ↔ q = 2 ^ q.log2 := by
  rw [show 2 ^ 52 = 2 ^ q.log2 * 2 ^ (52 - q.log2) from two_pow_split (whole_bits hpos hq).1]
  exact Nat.mul_left_inj (Nat.ne_of_gt (Nat.two_pow_pos _))

theorem two_pow_lt_mul_halvesBelow (hpos : q ≠ 0) (hq : q < 2 ^ 53) :
    2 ^ 53 < q * halvesBelow q := by
  have hlow := (whole_bits hpos hq).2.1
  rw [halvesBelow, halvesAbove_eq hq]
  split
  next =>
    rw [Nat.mul_left_comm, Nat.mul_left_comm q]
    omega
  next hpower =>
    have hne := mt (mul_two_pow_eq_iff hpos hq).mp hpower
    rw [Nat.mul_left_comm]
    omega

theorem le_of_mul_le_add_one {a b c : Nat} (hc : 2 ≤ c) (h : a * c ≤ b * c + 1) : a ≤ b := by
  by_contra hlt
  have hstep : (b + 1) * c ≤ a * c := Nat.mul_le_mul_right c (Nat.not_le.mp hlt)
  rw [Nat.add_mul] at hstep
  omega

/-- A common factor does not matter for whether an inequality is strict. -/
theorem mul_add_le_mul_iff {a b c d : Nat} (hc : 0 < c) (hd : d ≤ 1) :
    a * c + d ≤ b * c ↔ a + d ≤ b := by
  rcases Nat.le_one_iff_eq_zero_or_eq_one.mp hd with rfl | rfl
  · exact Nat.mul_le_mul_right_iff hc
  · exact Nat.mul_lt_mul_right hc

/-- The number below a significand of 53 bits. The distance to it is that of the significands, but
half as large below a power of two. -/
theorem unitsOf_below {shift significand k : Nat} (hlow : 2 ^ 52 ≤ significand)
    (hhigh : significand < 2 ^ 53) (hshift : shift ≠ 0)
    (hk : k + 1 = shift * 2 ^ 52 + significand) :
    if significand = 2 ^ 52 then 2 * unitsOf k + 2 ^ shift = 2 * (significand * 2 ^ shift)
    else unitsOf k + 2 ^ shift = significand * 2 ^ shift := by
  split
  next hpower =>
    obtain ⟨less, rfl⟩ : ∃ less, shift = less + 1 := ⟨shift - 1, by omega⟩
    have hbelow : k = less * 2 ^ 52 + (2 ^ 53 - 1) := by omega
    rw [hbelow, unitsOf_shift (by decide) (.inr (by decide)), hpower, Nat.pow_succ]
    ring
  next hpower =>
    have hbelow : k = shift * 2 ^ 52 + (significand - 1) := by omega
    have hstep : significand - 1 + 1 = significand := by omega
    rw [hbelow, unitsOf_shift (by omega) (.inr (by omega)), ← Nat.succ_mul, Nat.succ_eq_add_one,
      hstep]

/-- The middle between a number and the one below it, at a given distance. -/
theorem middle_le_iff {below bits scale last : Nat} (hscale : 0 < scale) (hlast : last ≤ 1)
    (h : below + scale = q * (bits * scale)) :
    (below + q * (bits * scale)) * den + last ≤ 2 * (num * (bits * scale)) ↔
      q * (2 * bits) * den + last ≤ num * (2 * bits) + den := by
  have hdistance : below * den + scale * den = q * (bits * scale) * den := by rw [← Nat.add_mul, h]
  have hlarge : q * (2 * bits) * den * scale = 2 * (q * (bits * scale) * den) := by ring
  have hsmall : (num * (2 * bits) + den) * scale = 2 * (num * (bits * scale)) + scale * den := by
    ring
  refine Iff.trans ?_ (mul_add_le_mul_iff hscale hlast)
  rw [hlarge, hsmall, Nat.add_mul]
  omega

/-- The same at half the distance. -/
theorem middle_le_iff_of_half {below bits scale : Nat} (hscale : 0 < scale)
    (h : 2 * below + scale = 2 * (q * (bits * scale))) :
    (below + q * (bits * scale)) * den ≤ 2 * (num * (bits * scale)) ↔
      q * (2 * (2 * bits)) * den ≤ num * (2 * (2 * bits)) + den := by
  have hdistance : 2 * (below * den) + scale * den = 2 * (q * (bits * scale) * den) := by
    rw [← Nat.mul_assoc, ← Nat.add_mul, h, Nat.mul_assoc]
  have hlarge : q * (2 * (2 * bits)) * den * scale = 4 * (q * (bits * scale) * den) := by ring
  have hsmall : (num * (2 * (2 * bits)) + den) * scale =
      4 * (num * (bits * scale)) + scale * den := by
    ring
  refine Iff.trans ?_ (Nat.mul_le_mul_right_iff hscale)
  rw [hlarge, hsmall, Nat.add_mul]
  omega

section

variable (hpos : q ≠ 0) (hq : q < 2 ^ 53) (hm : unitsOf m = q * unitsOfOne)
include hpos hq hm

/-- The magnitude of a whole number. -/
theorem eq_of_unitsOf_eq_whole :
    m = (1074 - (52 - q.log2)) * 2 ^ 52 + q * 2 ^ (52 - q.log2) := by
  obtain ⟨hbits, hlow, hhigh⟩ := whole_bits hpos hq
  have hunits := unitsOfOne_eq (e := 52 - q.log2) (by omega)
  refine unitsOf_strictMono.injective ?_
  rw [hm, unitsOf_shift hhigh (.inr hlow), hunits, Nat.mul_assoc]

theorem lastBit_eq : m % 2 = lastBit q := by
  rw [eq_of_unitsOf_eq_whole hpos hq hm, lastBit]
  omega

theorem above_iff_of_whole :
    2 * (num * unitsOfOne) + m % 2 ≤ (unitsOf m + unitsOf (m + 1)) * den ↔
      num * halvesAbove q + lastBit q ≤ (q * halvesAbove q + 1) * den := by
  obtain ⟨hbits, hlow, hhigh⟩ := whole_bits hpos hq
  have hone := unitsOfOne_eq (e := 52 - q.log2) (by omega)
  have hnext : unitsOf (m + 1) = (q * 2 ^ (52 - q.log2) + 1) * 2 ^ (1074 - (52 - q.log2)) := by
    rw [eq_of_unitsOf_eq_whole hpos hq hm, Nat.add_assoc,
      unitsOf_shift_le hhigh (.inr (Nat.le_succ_of_le hlow))]
  rw [lastBit_eq hpos hq hm, hm, hnext, hone, halvesAbove_eq hq]
  have hscale := Nat.two_pow_pos (1074 - (52 - q.log2))
  refine Iff.trans ?_ (mul_add_le_mul_iff hscale (lastBit_le_one q))
  generalize 2 ^ (52 - q.log2) = bits
  generalize 2 ^ (1074 - (52 - q.log2)) = scale
  rw [show 2 * (num * (bits * scale)) = num * (2 * bits) * scale by ring,
    show (q * (bits * scale) + (q * bits + 1) * scale) * den =
      (q * (2 * bits) + 1) * den * scale by ring]

theorem below_iff_of_whole :
    (∀ k, k + 1 = m → (unitsOf k + unitsOf m) * den + m % 2 ≤ 2 * (num * unitsOfOne)) ↔
      q * halvesBelow q * den + lastBit q ≤ num * halvesBelow q + den := by
  obtain ⟨hbits, hlow, hhigh⟩ := whole_bits hpos hq
  have hone := unitsOfOne_eq (e := 52 - q.log2) (by omega)
  have hmagnitude := eq_of_unitsOf_eq_whole hpos hq hm
  have hscale := Nat.two_pow_pos (1074 - (52 - q.log2))
  obtain ⟨k, hk⟩ : ∃ k, k + 1 = m := ⟨m - 1, by omega⟩
  -- There is one number below.
  have hsingle : (∀ k', k' + 1 = m →
      (unitsOf k' + unitsOf m) * den + m % 2 ≤ 2 * (num * unitsOfOne)) ↔
      (unitsOf k + unitsOf m) * den + m % 2 ≤ 2 * (num * unitsOfOne) := by
    subst hk
    simp
  have hbelow := unitsOf_below hlow hhigh (by omega) (hk.trans hmagnitude)
  rw [hsingle, lastBit_eq hpos hq hm, hm, hone, halvesBelow, halvesAbove_eq hq]
  rw [Nat.mul_assoc q] at hbelow
  have hpower := mul_two_pow_eq_iff hpos hq
  split at hbelow
  next heq =>
    have heven : lastBit q = 0 := by rw [lastBit, heq]; rfl
    rw [if_pos (hpower.mp heq), heven]
    exact middle_le_iff_of_half hscale hbelow
  next heq =>
    rw [if_neg (mt hpower.mpr heq)]
    exact middle_le_iff hscale (lastBit_le_one q) hbelow

/-- A fraction rounds to a whole number exactly if no floating-point number is nearer to it. -/
theorem roundsTo_iff_isNearestWhole :
    RoundsTo (num * unitsOfOne) den m ↔ IsNearestWhole num den q := by
  constructor
  · exact fun h => ⟨fun hzero => absurd hzero hpos, (above_iff_of_whole hpos hq hm).mp h.above,
      (below_iff_of_whole hpos hq hm).mp h.below⟩
  · exact fun h => ⟨(above_iff_of_whole hpos hq hm).mpr h.above,
      (below_iff_of_whole hpos hq hm).mpr h.below⟩

end

/-! ## What is rounded to a whole number -/

namespace IsNearestWhole

/-- A whole number is rounded to itself. -/
theorem of_eq (hden : 0 < den) (h : num = q * den) : IsNearestWhole num den q := by
  have hlast := lastBit_le_one q
  subst h
  refine ⟨fun hzero => by rw [hzero, Nat.zero_mul], ?_, ?_⟩
  · rw [Nat.add_mul, Nat.mul_right_comm]
    omega
  · rw [Nat.mul_right_comm]
    omega

variable (h : IsNearestWhole num den q) (hq : q < 2 ^ 53)
include h hq

/-- Of the whole numbers, only `q` itself is rounded to `q`. -/
theorem eq_of_dvd (hden : 0 < den) (hdvd : den ∣ num) : num = q * den := by
  obtain ⟨k, rfl⟩ := hdvd
  have htwo := two_le_halvesAbove hq
  have habove : k * halvesAbove q ≤ q * halvesAbove q + 1 := by
    refine Nat.le_of_mul_le_mul_right ?_ hden
    rw [Nat.mul_right_comm, Nat.mul_comm k]
    exact (Nat.le_add_right _ _).trans h.above
  have hbelow : q * halvesBelow q ≤ k * halvesBelow q + 1 := by
    refine Nat.le_of_mul_le_mul_right ?_ hden
    rw [Nat.add_mul, Nat.one_mul, Nat.mul_right_comm k, Nat.mul_comm k]
    exact (Nat.le_add_right _ _).trans h.below
  have hsame : k = q := Nat.le_antisymm (le_of_mul_le_add_one htwo habove)
    (le_of_mul_le_add_one (htwo.trans (halvesAbove_le_halvesBelow q)) hbelow)
  rw [hsame, Nat.mul_comm]

/-- The numerator of any other fraction that is rounded to a whole number is large. -/
theorem le_of_not_dvd (hdvd : ¬ den ∣ num) : 2 ^ 53 ≤ num := by
  have hpos : q ≠ 0 := fun hzero => hdvd (h.zero hzero ▸ Nat.dvd_zero den)
  have hne : num ≠ q * den := fun heq => hdvd (heq ▸ Nat.dvd_mul_left den q)
  rcases Nat.lt_or_gt_of_ne hne with hlt | hgt
  · have hlarge := two_pow_lt_mul_halvesBelow hpos hq
    have hbelow := (Nat.le_add_right _ _).trans h.below
    generalize halvesBelow q = halves at *
    have hstep : (num + 1) * halves ≤ q * halves * den :=
      (Nat.mul_le_mul_right halves hlt).trans_eq (Nat.mul_right_comm q den halves)
    have hhalves : halves ≤ den := by
      rw [Nat.add_mul] at hstep
      omega
    -- Otherwise the numerator is too small for the middle below.
    by_contra hsmall
    have hden : 0 < den := Nat.pos_of_mul_pos_left (Nat.zero_lt_of_lt hlt)
    have hmiddle : (num + 2) * den ≤ num * den + den :=
      calc (num + 2) * den ≤ q * halves * den := Nat.mul_le_mul_right den (by omega)
        _ ≤ num * halves + den := hbelow
        _ ≤ num * den + den := Nat.add_le_add_right (Nat.mul_le_mul_left num hhalves) den
    rw [Nat.add_mul] at hmiddle
    omega
  · have hlarge := two_pow_le_mul_halvesAbove hpos hq
    have habove := (Nat.le_add_right _ _).trans h.above
    generalize halvesAbove q = halves at *
    have hstep : q * halves * den + halves ≤ num * halves := by
      rw [Nat.mul_right_comm, ← Nat.succ_mul]
      exact Nat.mul_le_mul_right halves hgt
    have hhalves : halves ≤ den := by
      rw [Nat.add_mul] at habove
      omega
    calc 2 ^ 53 ≤ q * halves := hlarge
      _ ≤ q * den := Nat.mul_le_mul_left q hhalves
      _ ≤ num := hgt.le

end IsNearestWhole

/-! ## Fractions in range -/

section

variable {negative : Bool}

theorem exists_ofRatio?_units_iff {units : Nat} :
    (∃ x, ofRatio? negative num den = some x ∧ x.units = units) ↔
      unitsOf (magnitudeOfRatio num den) = units ∧ magnitudeOfRatio num den < topMagnitude ∧
        underflows num den = false := by
  by_cases hrange : magnitudeOfRatio num den < topMagnitude
  · have hkept : (ofRatio negative num den).units = unitsOf (magnitudeOfRatio num den) :=
      congrArg unitsOf (Nat.min_eq_left hrange.le)
    have hover : overflows num den = false := by simpa [overflows] using hrange
    cases hunder : underflows num den <;> simp [ofRatio?, hover, hunder, hkept, hrange]
  · have hover : overflows num den := by simpa [overflows] using hrange
    simp [ofRatio?, hover, hrange]

theorem two_pow_le_unitsOfOne : 2 ^ 53 ≤ unitsOfOne := by
  obtain ⟨places, hplaces⟩ : ∃ places, unitsOfOne = 2 ^ 53 * 2 ^ places :=
    ⟨1074 - 53, by rw [unitsOfOne_eq (e := 53) (by decide)]⟩
  rw [hplaces]
  exact Nat.le_mul_of_pos_right _ (Nat.two_pow_pos places)

theorem underflows_eq_false_iff :
    underflows num den = false ↔
      num * unitsOfOne % den = 0 ∨ (2 ^ 54 - 1) * den ≤ 4 * (num * unitsOfOne) := by
  simp only [underflows, two_pow_eq, Bool.and_eq_false_iff, bne_eq_false_iff_eq,
    decide_eq_false_iff_not, Nat.not_lt]

/-- A fraction that is rounded to zero without being out of range is zero. -/
theorem eq_zero_of_roundsTo_zero (hden : 0 < den) (h : RoundsTo (num * unitsOfOne) den 0)
    (hunder : underflows num den = false) : num = 0 := by
  have habove : 2 * (num * unitsOfOne) ≤ den := by
    have hmiddle : unitsOf 0 + unitsOf (0 + 1) = 1 := by decide
    have hle := (Nat.le_add_right _ _).trans h.above
    rwa [hmiddle, Nat.one_mul] at hle
  have hzero : num * unitsOfOne = 0 := by
    rcases underflows_eq_false_iff.mp hunder with hwhole | hlarge
    · rw [Nat.mod_eq_of_lt (by omega)] at hwhole
      exact hwhole
    · omega
  exact (Nat.mul_eq_zero.mp hzero).resolve_right (Nat.ne_of_gt unitsOfOne_pos)

/-- A fraction that is rounded to a whole number from one on is not out of range. -/
theorem not_underflows_of_roundsTo (hpos : q ≠ 0) (hm : unitsOf m = q * unitsOfOne)
    (h : RoundsTo (num * unitsOfOne) den m) : underflows num den = false := by
  have hone := two_pow_le_unitsOfOne
  have hunits : 2 ^ 53 ≤ unitsOf m :=
    hm ▸ hone.trans (Nat.le_mul_of_pos_left _ (Nat.pos_of_ne_zero hpos))
  obtain ⟨k, hk⟩ : ∃ k, k + 1 = m := by
    refine Nat.exists_add_one_eq.mpr (Nat.pos_of_ne_zero ?_)
    rintro rfl
    exact absurd hunits (by decide)
  have hbelow := (Nat.le_add_right _ _).trans (h.below k hk)
  rw [Nat.add_mul] at hbelow
  have hlarge := Nat.mul_le_mul_right den hunits
  exact underflows_eq_false_iff.mpr (.inr (by omega))

theorem magnitudeOfRatio_zero (hden : 0 < den) : magnitudeOfRatio 0 den = 0 :=
  @magnitudeOfRatio_exact 0 den 0 0 hden (by decide) (.inl rfl) (by simp)

/-- The fractions in range that are read as a whole number are those to which it is nearest. -/
theorem exists_ofRatio?_whole_iff (hden : 0 < den) (hq : q < 2 ^ 53) :
    (∃ x, ofRatio? negative num den = some x ∧ x.units = q * unitsOfOne) ↔
      IsNearestWhole num den q := by
  rw [exists_ofRatio?_units_iff]
  have hrounds := roundsTo_magnitudeOfRatio num hden
  by_cases hpos : q = 0
  · subst hpos
    rw [Nat.zero_mul]
    constructor
    · rintro ⟨hunits, -, hunder⟩
      have hmagnitude : magnitudeOfRatio num den = 0 := unitsOf_strictMono.injective hunits
      rw [hmagnitude] at hrounds
      exact .of_eq hden (by rw [eq_zero_of_roundsTo_zero hden hrounds hunder, Nat.zero_mul])
    · intro h
      obtain rfl := h.zero rfl
      rw [magnitudeOfRatio_zero hden, underflows_eq_false_iff, Nat.zero_mul, Nat.zero_mod]
      exact ⟨rfl, by decide, .inl rfl⟩
  · constructor
    · rintro ⟨hunits, -, -⟩
      exact (roundsTo_iff_isNearestWhole hpos hq hunits).mp hrounds
    · intro h
      obtain ⟨hunits, hfinite⟩ := units_ofInt (show (q : Int).natAbs < 2 ^ 53 from hq)
      have hnearest := (roundsTo_iff_isNearestWhole hpos hq hunits).mpr h
      rw [(magnitudeOfRatio_eq_iff num hden).mpr hnearest]
      exact ⟨hunits, of_decide_eq_true hfinite, not_underflows_of_roundsTo hpos hunits hnearest⟩

end

end CatalogEdit.Binary64
