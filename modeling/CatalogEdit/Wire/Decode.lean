import CatalogEdit.Json.Cursor
import CatalogEdit.Rule.Check

/-!
# Edits and selections from JSON

Fields are read in a fixed order, unknown ones are passed over, and the first mismatch is
reported. What was read is then checked against the rules.

## Main definitions

* `Edit.decode`, `Selection.decode` — the edit or selection written by a JSON value.
* `WireError` — a mismatch, or a broken rule of a value that could be read.
-/

namespace CatalogEdit

open Json

inductive WireError where
  | mismatch (m : Mismatch)
  | violation (v : Violation)
deriving DecidableEq, Repr

def WireError.message : WireError → Text
  | .mismatch m => m.message
  | .violation v => v.message

/-! ## Changes -/

def Rounding.read (c : Cursor) : Except Mismatch Rounding := do
  let f ← c.object
  let precision ← f.required "precision" Cursor.number
  let endWith ← f.optional "endWith" Cursor.text
  let mode ← f.ifPresent "mode" .nearest Cursor.named
  return { precision, endWith, mode }

def PriceChange.read (f : Fields) : Except Mismatch PriceChange := do
  let mode ← f.required "mode" Cursor.named
  let value ← f.required "value" Cursor.number
  let currency ← f.optional "currency" Cursor.text
  let rounding ← f.ifPresent "round" none fun c => some <$> Rounding.read c
  return { mode, value, currency, rounding }

def TagChange.read (f : Fields) : Except Mismatch TagChange := do
  let mode ← f.required "mode" Cursor.named
  let values ← f.required "values" Cursor.texts
  return { mode, values }

/-- Beyond this size not every integer is a floating-point number. -/
abbrev InventoryChange.maxSize : Nat := Nat.pow 2 53 - 1

def InventoryChange.readValue (c : Cursor) : Except Mismatch Int := do
  let x ← c.number
  match x.toInt?.filter fun n => n.natAbs ≤ maxSize with
  | some n => .ok n
  | none => c.mismatch .integer

def InventoryChange.read (f : Fields) : Except Mismatch InventoryChange := do
  let mode ← f.required "mode" Cursor.named
  let value ← f.required "value" readValue
  let location ← f.optional "locationId" Cursor.text
  return { mode, value, location }

def MetafieldValue.read (c : Cursor) : Except Mismatch MetafieldValue :=
  match c.value with
  | .null => .ok .null
  | .string t => .ok (.text t)
  | .bool b => .ok (.flag b)
  | .integer n => .ok (.number (Binary64.ofInt n))
  | .number x => .ok (.number x)
  | _ => c.mismatch .metafieldValue

def Metafield.read (c : Cursor) : Except Mismatch Metafield := do
  let f ← c.object
  let ns ← f.required "ns" Cursor.text
  let key ← f.required "key" Cursor.text
  let type ← f.required "type" Cursor.text
  let value ← f.ifPresent "value" none fun c => some <$> MetafieldValue.read c
  return { ns, key, type, value }

def Seo.read (c : Cursor) : Except Mismatch Seo := do
  let f ← c.object
  let title ← f.optional "title" Cursor.text
  let description ← f.optional "description" Cursor.text
  return { title, description }

def Change.read (operation : Operation) (c : Cursor) : Except Mismatch Change := do
  let f ← c.object
  match operation with
  | .price => .price <$> PriceChange.read f
  | .compareAt => .compareAt <$> PriceChange.read f
  | .tags => .tags <$> TagChange.read f
  | .inventory => .inventory <$> InventoryChange.read f
  | .status => .status <$> f.required "status" Cursor.named
  | .metafield => .metafield <$> f.required "metafield" Metafield.read
  | .seo => .seo <$> f.required "seo" Seo.read

/-! ## Edits -/

def Edit.read (c : Cursor) : Except Mismatch Edit := do
  let f ← c.object
  let operation ← f.required "operation" Cursor.named
  let scope ← f.ifPresent "scope" .product Cursor.named
  let schedule ← f.optional "schedule" Cursor.text
  let change ← f.required "params" (Change.read operation)
  return { scope, schedule, change }

def Edit.decode (j : Json) : Except WireError Edit := do
  let e ← (Edit.read ⟨Edit.root, j⟩).mapError .mismatch
  e.check.mapError .violation

/-! ## Selections -/

def Requirements.read (c : Cursor) : Except Mismatch Requirements := do
  let f ← c.object
  let vendors ← f.ifPresent "vendors" [] Cursor.texts
  let types ← f.ifPresent "types" [] Cursor.texts
  let collections ← f.ifPresent "collections" [] Cursor.texts
  let tags ← f.ifPresent "tags" [] Cursor.texts
  return { vendors, types, collections, tags }

def Exclusions.read (c : Cursor) : Except Mismatch Exclusions := do
  let f ← c.object
  let tags ← f.ifPresent "tags" [] Cursor.texts
  return { tags }

def Bounds.read (c : Cursor) : Except Mismatch Bounds := do
  let f ← c.object
  let priceAtLeast ← f.optional "priceGte" Cursor.number
  let priceAtMost ← f.optional "priceLte" Cursor.number
  let inventoryEquals ← f.optional "inventoryEq" Cursor.number
  return { priceAtLeast, priceAtMost, inventoryEquals }

def Selection.read (c : Cursor) : Except Mismatch Selection := do
  let f ← c.object
  let must ← f.ifPresent "must" {} Requirements.read
  let mustNot ← f.ifPresent "mustNot" {} Exclusions.read
  let titleContains ← f.optional "titleContains" Cursor.text
  let numeric ← f.ifPresent "numeric" {} Bounds.read
  return { must, mustNot, titleContains, numeric }

def Selection.decode (j : Json) : Except WireError Selection := do
  let s ← (Selection.read ⟨Selection.root, j⟩).mapError .mismatch
  s.check.mapError .violation

end CatalogEdit
