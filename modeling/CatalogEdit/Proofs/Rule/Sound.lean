import CatalogEdit.Rule.Check

/-!
# Values that break no rule

A check succeeds exactly if no rule is broken, and then it gives back the value. The building
blocks of the rules are read as statements about the value.

## Main statements

* `Violation.first_eq_ok`, `Violation.first_eq_error` — the first of no violations, and of some.
* `Violation.ensure_eq_nil`, `Violation.ofOption_eq_nil` — when a building block reports nothing.
* `Edit.check_eq_ok`, `Selection.check_eq_ok`, `Response.check_eq_ok` — a check succeeds exactly on
  sound values.
-/

namespace CatalogEdit

/-! ## Building blocks -/

namespace Violation

@[simp] theorem ensure_eq_nil {sound : Bool} {path : Path} {rule : Rule} :
    ensure sound path rule = [] ↔ sound = true := by
  cases sound <;> simp [ensure]

@[simp] theorem ofOption_eq_nil {α : Type} {check : α → List Violation} {o : Option α} :
    ofOption check o = [] ↔ ∀ a ∈ o, check a = [] := by
  cases o with
  | none => simp [ofOption]
  | some a => simp [ofOption]

theorem first_eq_ok {α : Type} {a b : α} {violations : List Violation} :
    first a violations = .ok b ↔ violations = [] ∧ a = b := by
  cases violations with
  | nil => simp [first]
  | cons v vs => simp [first]

theorem first_eq_error {α : Type} {a : α} {v : Violation} {violations : List Violation} :
    first a violations = .error v ↔ violations.head? = some v := by
  cases violations with
  | nil => simp [first]
  | cons w vs => simp [first]

end Violation

@[simp] theorem finite_eq_nil {path : Path} {x : Binary64} :
    finite path x = [] ↔ x.isFinite = true :=
  Violation.ensure_eq_nil

@[simp] theorem notEmpty_eq_nil {path : Path} {t : Text} : notEmpty path t = [] ↔ t ≠ [] := by
  simp [notEmpty]

/-! ## Checks -/

theorem Edit.check_eq_ok {e e' : Edit} : e.check = .ok e' ↔ e.violations = [] ∧ e = e' :=
  Violation.first_eq_ok

theorem Selection.check_eq_ok {s s' : Selection} :
    s.check = .ok s' ↔ s.violations = [] ∧ s = s' :=
  Violation.first_eq_ok

theorem Response.check_eq_ok {r r' : Response} :
    r.check = .ok r' ↔ r.violations = [] ∧ r = r' :=
  Violation.first_eq_ok

end CatalogEdit
