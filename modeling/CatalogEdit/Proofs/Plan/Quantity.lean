import CatalogEdit.Proofs.Mention.Number
import CatalogEdit.Proofs.Number.Rounding
import CatalogEdit.Proofs.Plan.Inventory

/-!
# Quantities and the numbers they are read from

Stock is changed by the floating-point number that is nearest to the first number of the request,
if that is a whole one and not too large. So a whole number is read as it is written or not at all,
but a fraction with many digits may be nearest to a whole number, and then it is read as that.

## Main definitions

* `Response.edit?` — the change of a response, planned or drafted.

## Main statements

* `InventoryRequest.edit?_respond` — the change is by the quantity that is read.
* `InventoryRequest.quantity?_eq_some_iff` — which quantity is read from the first number.
* `InventoryRequest.quantities_are_exact_unless_rounded` — changes of stock, whole numbers and
  fractions.
-/

namespace CatalogEdit

open Mention (IsFirstNumeral)

/-- The change of a response, planned or drafted. -/
def Response.edit? : Response → Option Edit
  | .plan p => some p.edit
  | .clarification c => c.draft.bind Draft.edit
  | .refusal _ => none

theorem Numeral.denominator_pos (n : Numeral) : 0 < n.denominator := Nat.pow_pos (by decide)

namespace InventoryRequest

variable {t pre post : Text} {n : Numeral}

/-- The change of a request about stock is by the quantity that is read. -/
theorem edit?_respond (t : Text) : (respond t).edit? = (quantity? t).map (edit t) := by
  cases hquantity : quantity? t <;> cases hplace : Mention.location? t <;>
    simp [respond, hquantity, hplace, Response.edit?, Response.ask, plan, draft]

theorem quantity?_of_forall_not_isDigit (h : ∀ b ∈ withoutPlace t, Byte.isDigit b = false) :
    quantity? t = none := by
  rw [quantity?, Mention.plainNumber?, Mention.search_read?_eq_none_iff.mpr h, Option.bind_none,
    Option.bind_none]

theorem le_maxQuantity_iff {q : Nat} : q ≤ maxQuantity ↔ q < 2 ^ 53 :=
  Nat.le_sub_one_iff_lt (by decide)

/-- The quantity is the whole number that is nearest to the first number of the request. -/
theorem quantity?_eq_some_iff (h : IsFirstNumeral (withoutPlace t) pre n post) {q : Int} :
    quantity? t = some q ↔ ∃ k : Nat, q = k ∧ k ≤ maxQuantity ∧
      Binary64.IsNearestWhole n.numerator n.denominator k := by
  have hvalue : quantity? t = n.value?.bind wholeQuantity? := by
    rw [quantity?, Mention.plainNumber?, Mention.search_read?_eq_some_iff.mpr ⟨pre, post, h⟩,
      Option.bind_some]
  simp only [hvalue, Option.bind_eq_some_iff, wholeQuantity?_eq_some]
  constructor
  · rintro ⟨x, hx, -, hunits, hpos, hmax⟩
    have hle : q.natAbs ≤ maxQuantity := by omega
    exact ⟨q.natAbs, (Int.natAbs_of_nonneg hpos).symm, hle,
      (Binary64.exists_ofRatio?_whole_iff n.denominator_pos (le_maxQuantity_iff.mp hle)).mp
        ⟨x, hx, hunits⟩⟩
  · rintro ⟨k, rfl, hmax, hnearest⟩
    obtain ⟨x, hx, hunits⟩ :=
      (Binary64.exists_ofRatio?_whole_iff n.denominator_pos (le_maxQuantity_iff.mp hmax)).mpr
        hnearest
    exact ⟨x, hx, Binary64.isFinite_of_ofRatio? hx, hunits, Int.natCast_nonneg k, by omega⟩

theorem edit?_respond_eq_some_iff (h : IsFirstNumeral (withoutPlace t) pre n post) {e : Edit} :
    (respond t).edit? = some e ↔ ∃ q : Nat, e = edit t q ∧ q ≤ maxQuantity ∧
      Binary64.IsNearestWhole n.numerator n.denominator q := by
  simp only [edit?_respond, Option.map_eq_some_iff, quantity?_eq_some_iff h]
  constructor
  · rintro ⟨_, ⟨q, rfl, hmax, hnearest⟩, rfl⟩
    exact ⟨q, rfl, hmax, hnearest⟩
  · rintro ⟨q, rfl, hmax, hnearest⟩
    exact ⟨q, ⟨q, rfl, hmax, hnearest⟩, rfl⟩

/-- Stock is changed by the whole number up to `2 ^ 53 - 1` that no floating-point number beats in
being near to the first number of the request; without a digit there is no change. If the first
number is a whole one, the change is by exactly that number, and there is none if it is larger. Any
other number that leads to a change has a numerator of `2 ^ 53` or more. -/
theorem quantities_are_exact_unless_rounded (t : Text) :
    ((∀ b ∈ withoutPlace t, Byte.isDigit b = false) → (respond t).edit? = none) ∧
    ∀ pre n post, IsFirstNumeral (withoutPlace t) pre n post →
      (∀ e, (respond t).edit? = some e ↔ ∃ q : Nat, e = edit t q ∧ q ≤ maxQuantity ∧
        Binary64.IsNearestWhole n.numerator n.denominator q) ∧
      (n.denominator ∣ n.numerator → ∀ e, (respond t).edit? = some e ↔
        ∃ q : Nat, e = edit t q ∧ q ≤ maxQuantity ∧ n.numerator = q * n.denominator) ∧
      (¬ n.denominator ∣ n.numerator → (respond t).edit? ≠ none → 2 ^ 53 ≤ n.numerator) := by
  refine ⟨fun h => ?_, fun pre n post h => ⟨fun e => edit?_respond_eq_some_iff h, ?_, ?_⟩⟩
  · rw [edit?_respond, quantity?_of_forall_not_isDigit h, Option.map_none]
  · intro hdvd e
    rw [edit?_respond_eq_some_iff h]
    refine exists_congr fun q => and_congr_right fun _ => and_congr_right fun hmax => ?_
    exact ⟨fun hnearest => hnearest.eq_of_dvd (le_maxQuantity_iff.mp hmax) n.denominator_pos hdvd,
      Binary64.IsNearestWhole.of_eq n.denominator_pos⟩
  · intro hdvd hsome
    obtain ⟨e, he⟩ := Option.ne_none_iff_exists'.mp hsome
    obtain ⟨q, -, hmax, hnearest⟩ := (edit?_respond_eq_some_iff h).mp he
    exact hnearest.le_of_not_dvd (le_maxQuantity_iff.mp hmax) hdvd

theorem quantities_are_exact_unless_rounded_two_requests :
    (IsFirstNumeral (withoutPlace (utf8 "set stock to -12.00 at Aisle 3")) (utf8 "set stock to ")
        ⟨true, utf8 "12", utf8 "00"⟩ (utf8 " at  ") ∧
      (respond (utf8 "set stock to -12.00 at Aisle 3")).edit? =
        some (edit (utf8 "set stock to -12.00 at Aisle 3") (12 : Nat))) ∧
    (respond (utf8 "set stock to .")).edit? = none := by
  have hnumeral : IsFirstNumeral (withoutPlace (utf8 "set stock to -12.00 at Aisle 3"))
      (utf8 "set stock to ") ⟨true, utf8 "12", utf8 "00"⟩ (utf8 " at  ") :=
    { eq := by decide +kernel
      isWellFormed := ⟨by decide +kernel, by decide +kernel, by decide +kernel⟩
      endsBefore := ⟨by decide +kernel, fun h => absurd h (by decide +kernel)⟩
      digit := by decide +kernel
      minus := fun h => absurd h (by decide) }
  obtain ⟨-, hwhole, -⟩ :=
    (quantities_are_exact_unless_rounded (utf8 "set stock to -12.00 at Aisle 3")).2 _ _ _ hnumeral
  exact ⟨⟨hnumeral, (hwhole (by decide +kernel) _).mpr ⟨12, rfl, by decide, by decide +kernel⟩⟩,
    (quantities_are_exact_unless_rounded _).1 (by decide +kernel)⟩

/-- A fraction with many digits sets stock to a whole number, and one above `2 ^ 53 - 1` sets it
to that number. -/
theorem quantity_of_fraction :
    (∃ pre n post, IsFirstNumeral (withoutPlace (utf8 "set stock to 4.9999999999999999 at Depot"))
        pre n post ∧ ¬ n.denominator ∣ n.numerator) ∧
      respond (utf8 "set stock to 4.9999999999999999 at Depot") =
        .plan (plan (utf8 "set stock to 4.9999999999999999 at Depot") 5) ∧
    (∃ pre n post, IsFirstNumeral (withoutPlace (utf8 "set stock to 9007199254740991.4 at Depot"))
        pre n post ∧ (2 ^ 53 - 1) * n.denominator < n.numerator) ∧
      respond (utf8 "set stock to 9007199254740991.4 at Depot") =
        .plan (plan (utf8 "set stock to 9007199254740991.4 at Depot") (2 ^ 53 - 1)) := by
  have hfirst : IsFirstNumeral (withoutPlace (utf8 "set stock to 4.9999999999999999 at Depot"))
      (utf8 "set stock to ") ⟨false, utf8 "4", utf8 "9999999999999999"⟩ (utf8 " at  ") :=
    { eq := by decide +kernel
      isWellFormed := ⟨by decide +kernel, by decide +kernel, by decide +kernel⟩
      endsBefore := ⟨by decide +kernel, fun h => absurd h (by decide +kernel)⟩
      digit := by decide +kernel
      minus := by decide +kernel }
  have hsecond : IsFirstNumeral (withoutPlace (utf8 "set stock to 9007199254740991.4 at Depot"))
      (utf8 "set stock to ") ⟨false, utf8 "9007199254740991", utf8 "4"⟩ (utf8 " at  ") :=
    { eq := by decide +kernel
      isWellFormed := ⟨by decide +kernel, by decide +kernel, by decide +kernel⟩
      endsBefore := ⟨by decide +kernel, fun h => absurd h (by decide +kernel)⟩
      digit := by decide +kernel
      minus := by decide +kernel }
  exact ⟨⟨_, _, _, hfirst, by decide +kernel⟩, by decide +kernel,
    ⟨_, _, _, hsecond, by decide +kernel⟩, by decide +kernel⟩

end InventoryRequest

end CatalogEdit
