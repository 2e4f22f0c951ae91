import CatalogEdit.Plan.Inventory
import CatalogEdit.Proofs.Number.Value

/-!
# Amounts and quantities

Every amount of a request is a finite number, and a number is a quantity exactly if it is whole and
at most `2 ^ 53 - 1` in absolute value.

## Main statements

* `Mention.isFinite_of_percentage?`, `Mention.isFinite_of_currencyAmount?` — amounts are finite.
* `InventoryRequest.wholeQuantity?_eq_some` — which numbers are quantities.
* `InventoryRequest.quantity?_bounds` — a quantity is not negative, and not too large.
-/

namespace CatalogEdit

/-! ## Amounts -/

namespace Mention

variable {t : Text} {x : Binary64}

theorem isFinite_of_plainNumber? (h : plainNumber? t = some x) : x.isFinite := by
  obtain ⟨n, -, hn⟩ := Option.bind_eq_some_iff.mp h
  exact Numeral.isFinite_of_value? hn

theorem isFinite_of_percentage? (h : percentage? t = some x) : x.isFinite := by
  obtain ⟨n, -, hn⟩ := Option.bind_eq_some_iff.mp h
  exact Numeral.isFinite_of_value? hn

theorem isFinite_of_currencyAmount? (h : currencyAmount? t = some x) : x.isFinite := by
  simp only [currencyAmount?, Option.or_eq_some_iff] at h
  rcases h with hmoney | ⟨-, hplain⟩
  · obtain ⟨n, -, hn⟩ := Option.bind_eq_some_iff.mp hmoney
    exact Numeral.isFinite_of_value? hn
  · exact isFinite_of_plainNumber? hplain

end Mention

/-! ## Quantities -/

namespace InventoryRequest

/-- A quantity is the absolute value of a whole number, in units. -/
theorem wholeQuantity?_eq_some {x : Binary64} {q : Int} :
    wholeQuantity? x = some q ↔
      x.isFinite ∧ x.units = q.natAbs * Binary64.unitsOfOne ∧ 0 ≤ q ∧ q ≤ maxQuantity := by
  have hsign : x.abs.negative = false := rfl
  simp only [wholeQuantity?, Option.filter_eq_some_iff, Binary64.toInt?_eq_some_iff,
    Binary64.isFinite_abs, Binary64.units_abs, decide_eq_true_eq, hsign]
  constructor
  · rintro ⟨⟨hfinite, hunits, hnegative, -⟩, hmax⟩
    refine ⟨hfinite, hunits, ?_, hmax⟩
    exact Int.not_lt.mp fun hlt => absurd (hnegative hlt) Bool.false_ne_true
  · rintro ⟨hfinite, hunits, hpos, hmax⟩
    refine ⟨⟨hfinite, hunits, fun hlt => ?_, fun _ => trivial⟩, hmax⟩
    omega

theorem quantity?_bounds {t : Text} {q : Int} (h : quantity? t = some q) :
    0 ≤ q ∧ q ≤ maxQuantity := by
  obtain ⟨x, -, hx⟩ := Option.bind_eq_some_iff.mp h
  exact (wholeQuantity?_eq_some.mp hx).2.2

end InventoryRequest

end CatalogEdit
