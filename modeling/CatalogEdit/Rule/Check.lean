import CatalogEdit.Response
import CatalogEdit.Rule.Timestamp
import CatalogEdit.Rule.Violation

/-!
# The rules of edits, selections and responses

Every type of the wire format has a list of the rules that one of its values breaks, in the
order of the fields. A value is sound if the list is empty; otherwise the first entry is what is
reported.

## Main definitions

* `Edit.violations`, `Selection.violations`, `Response.violations` — all broken rules in order.
* `Edit.check`, `Selection.check`, `Response.check` — the first broken rule.
-/

namespace CatalogEdit

/-! ## Building blocks -/

namespace Violation

def ensure (sound : Bool) (path : Path) (rule : Rule) : List Violation :=
  if sound then [] else [⟨path, rule⟩]

/-- The rules broken by a value that may be absent. -/
def ofOption {α : Type} (check : α → List Violation) : Option α → List Violation
  | none => []
  | some a => check a

/-- Report the first violation, or `a` if there is none. -/
def first {α : Type} (a : α) : List Violation → Except Violation α
  | [] => .ok a
  | v :: _ => .error v

end Violation

open Violation

def finite (path : Path) (x : Binary64) : List Violation :=
  ensure x.isFinite path .finiteNumber

def notEmpty (path : Path) (t : Text) : List Violation :=
  ensure (!t.isEmpty) path .notEmpty

def atMostCharacters (limit : Nat) (path : Path) (t : Text) : List Violation :=
  ensure (t.codePoints ≤ limit) path (.atMostCharacters limit)

/-! ## Edits -/

def isCurrencyCode (t : Text) : Bool := t.length == 3 && t.all Byte.isUpper

/-- Positive and at most one. -/
def isPrecision (x : Binary64) : Bool :=
  !x.negative && 0 < x.magnitude && x.magnitude ≤ Binary64.one.magnitude

def PriceChange.violations (path : Path) (c : PriceChange) : List Violation :=
  finite (path.field "value") c.value ++
    ofOption (fun code => ensure (isCurrencyCode code) (path.field "currency") .currencyCode)
      c.currency ++
    ofOption (fun r : Rounding =>
      ensure (isPrecision r.precision) ((path.field "round").field "precision") .unitInterval)
      c.rounding

def TagChange.violations (path : Path) (c : TagChange) : List Violation :=
  ensure (!c.values.isEmpty) (path.field "values") .atLeastOneTag ++
    c.values.zipIdx.flatMap fun (tag, index) =>
      notEmpty ((path.field "values").item index) tag

def InventoryChange.violations (path : Path) (c : InventoryChange) : List Violation :=
  ensure (0 ≤ c.value) (path.field "value") .notNegative ++
    ofOption (notEmpty (path.field "locationId")) c.location

def MetafieldValue.violations (path : Path) : MetafieldValue → List Violation
  | .number x => finite path x
  | _ => []

def Metafield.violations (path : Path) (m : Metafield) : List Violation :=
  notEmpty (path.field "ns") m.ns ++ notEmpty (path.field "key") m.key ++
    notEmpty (path.field "type") m.type ++
    ofOption (MetafieldValue.violations (path.field "value")) m.value

abbrev Seo.maxTitle : Nat := 70

abbrev Seo.maxDescription : Nat := 320

def Seo.violations (path : Path) (s : Seo) : List Violation :=
  ofOption (atMostCharacters maxTitle (path.field "title")) s.title ++
    ofOption (atMostCharacters maxDescription (path.field "description")) s.description

def Change.violations (path : Path) : Change → List Violation
  | .price c => c.violations path
  | .compareAt c => c.violations path
  | .tags c => c.violations path
  | .inventory c => c.violations path
  | .status _ => []
  | .metafield m => m.violations (path.field "metafield")
  | .seo s => s.violations (path.field "seo")

/-- The place of an edit in a response. -/
def Edit.root : Path := Path.ofField "opSpec"

def Edit.violations (e : Edit) : List Violation :=
  ofOption (fun s => ensure (Timestamp.isTimestamp s) (Edit.root.field "schedule") .timestamp)
      e.schedule ++
    e.change.violations (Edit.root.field "params")

def Edit.check (e : Edit) : Except Violation Edit := first e e.violations

/-! ## Selections -/

/-- The place of a selection in a response. -/
def Selection.root : Path := Path.ofField "filterSpec"

def Selection.violations (s : Selection) : List Violation :=
  let path := Selection.root.field "numeric"
  ofOption (finite (path.field "priceGte")) s.numeric.priceAtLeast ++
    ofOption (finite (path.field "priceLte")) s.numeric.priceAtMost ++
    ofOption (finite (path.field "inventoryEq")) s.numeric.inventoryEquals

def Selection.check (s : Selection) : Except Violation Selection := first s s.violations

/-! ## Responses -/

def Issue.violations (i : Issue) : List Violation :=
  notEmpty ((Path.ofField "issues").field "messageKey") i.messageKey

def Plan.violations (p : Plan) : List Violation := p.edit.violations ++ p.selection.violations

def Draft.violations (d : Draft) : List Violation :=
  ofOption Edit.violations d.edit ++ ofOption Selection.violations d.selection

def Clarification.violations (c : Clarification) : List Violation :=
  ensure (!c.issues.isEmpty) (Path.ofField "issues") .atLeastOneIssue ++
    c.issues.flatMap Issue.violations ++ ofOption Draft.violations c.draft

def Refusal.violations (r : Refusal) : List Violation := notEmpty (Path.ofField "code") r.code

def Response.violations : Response → List Violation
  | .plan p => p.violations
  | .clarification c => c.violations
  | .refusal r => r.violations

def Response.check (r : Response) : Except Violation Response := first r r.violations

end CatalogEdit
