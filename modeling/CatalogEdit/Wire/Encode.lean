import CatalogEdit.Json.Basic
import CatalogEdit.Response

/-!
# Responses as JSON

Fields stand in alphabetical order. A value that is absent has no field, except the title
condition of a selection, which is null then.

## Main definitions

* `Edit.encode`, `Selection.encode`, `Response.encode` — the wire form of each type.
-/

namespace CatalogEdit

open Json

def encodeName {α : Type} [Named α] (a : α) : Json := .string (Named.name a)

def encodeTexts (ts : List Text) : Json := .array (ts.map .string)

/-! ## Edits -/

def Rounding.encode (r : Rounding) : Json :=
  .object
    (fieldOfOption "endWith" .string r.endWith ++
      [(utf8 "mode", encodeName r.mode), (utf8 "precision", .number r.precision)])

def PriceChange.encode (c : PriceChange) : Json :=
  .object
    (fieldOfOption "currency" .string c.currency ++ [(utf8 "mode", encodeName c.mode)] ++
      fieldOfOption "round" Rounding.encode c.rounding ++ [(utf8 "value", .number c.value)])

def TagChange.encode (c : TagChange) : Json :=
  .object [(utf8 "mode", encodeName c.mode), (utf8 "values", encodeTexts c.values)]

def InventoryChange.encode (c : InventoryChange) : Json :=
  .object
    (fieldOfOption "locationId" .string c.location ++
      [(utf8 "mode", encodeName c.mode), (utf8 "value", .integer c.value)])

def MetafieldValue.encode : MetafieldValue → Json
  | .null => .null
  | .text t => .string t
  | .number x => .number x
  | .flag b => .bool b

def Metafield.encode (m : Metafield) : Json :=
  .object
    ([(utf8 "key", .string m.key), (utf8 "ns", .string m.ns), (utf8 "type", .string m.type)] ++
      fieldOfOption "value" MetafieldValue.encode m.value)

def Seo.encode (s : Seo) : Json :=
  .object
    (fieldOfOption "description" .string s.description ++ fieldOfOption "title" .string s.title)

def Change.encode : Change → Json
  | .price c => c.encode
  | .compareAt c => c.encode
  | .tags c => c.encode
  | .inventory c => c.encode
  | .status s => .object [(utf8 "status", encodeName s)]
  | .metafield m => .object [(utf8 "metafield", m.encode)]
  | .seo s => .object [(utf8 "seo", s.encode)]

def Edit.encode (e : Edit) : Json :=
  .object
    ([(utf8 "operation", encodeName e.operation), (utf8 "params", e.change.encode)] ++
      fieldOfOption "schedule" .string e.schedule ++ [(utf8 "scope", encodeName e.scope)])

/-! ## Selections -/

def Requirements.encode (r : Requirements) : Json :=
  .object
    [(utf8 "collections", encodeTexts r.collections), (utf8 "tags", encodeTexts r.tags),
      (utf8 "types", encodeTexts r.types), (utf8 "vendors", encodeTexts r.vendors)]

def Bounds.encode (b : Bounds) : Json :=
  .object
    (fieldOfOption "inventoryEq" .number b.inventoryEquals ++
      fieldOfOption "priceGte" .number b.priceAtLeast ++
      fieldOfOption "priceLte" .number b.priceAtMost)

def Selection.encode (s : Selection) : Json :=
  .object
    [(utf8 "must", s.must.encode),
      (utf8 "mustNot", .object [(utf8 "tags", encodeTexts s.mustNot.tags)]),
      (utf8 "numeric", s.numeric.encode),
      (utf8 "titleContains", s.titleContains.elim .null .string)]

/-! ## Responses -/

def Choice.encode (c : Choice) : Json :=
  .object [(utf8 "labelKey", .string c.labelKey), (utf8 "value", .string c.value)]

/-- Options that are empty have no field. -/
def Issue.encode (i : Issue) : Json :=
  .object
    ([(utf8 "code", encodeName i.code), (utf8 "messageKey", .string i.messageKey)] ++
      if i.options.isEmpty then [] else
        [(utf8 "options", .array (i.options.map Choice.encode))])

def Plan.encode (p : Plan) : Json :=
  .object
    ([(utf8 "action", .string (utf8 "plan")), (utf8 "confidence", encodeName p.confidence),
      (utf8 "filterSpec", p.selection.encode), (utf8 "opSpec", p.edit.encode)] ++
      fieldOfOption "summaryKey" .string p.summaryKey)

def Draft.encode (d : Draft) : Json :=
  .object
    (fieldOfOption "confidence" encodeName d.confidence ++
      fieldOfOption "filterSpec" Selection.encode d.selection ++
      fieldOfOption "opSpec" Edit.encode d.edit ++
      fieldOfOption "summaryKey" .string d.summaryKey)

def Clarification.encode (c : Clarification) : Json :=
  .object
    ([(utf8 "action", .string (utf8 "clarify"))] ++
      fieldOfOption "draft" Draft.encode c.draft ++
      [(utf8 "issues", .array (c.issues.map Issue.encode))])

def Refusal.encode (r : Refusal) : Json :=
  .object
    [(utf8 "action", .string (utf8 "error")), (utf8 "code", .string r.code),
      (utf8 "message", .string r.message)]

def Response.encode : Response → Json
  | .plan p => p.encode
  | .clarification c => c.encode
  | .refusal r => r.encode

/-- The value of the field `action`. -/
def Response.action : Response → Text
  | .plan _ => utf8 "plan"
  | .clarification _ => utf8 "clarify"
  | .refusal _ => utf8 "error"

end CatalogEdit
