import CatalogEdit.Proofs.Number.Value
import CatalogEdit.Proofs.Rule.Sound

/-!
# The rules and their places

What it means to break a rule is said here for each type of the wire format, one case for each rule
and in no order. The order is a list by itself: the places at which a value of the type has to keep
a rule, from the first to the last.

## Main definitions

* `Edit.Breaks`, `Selection.Breaks`, `Response.Breaks` — a rule is broken at a place.
* `Edit.places`, `Selection.places`, `Response.places` — the places in their order.
* `Binary64.IsUnitFraction` — a finite number that is greater than zero and at most one.

## Main statements

* `Edit.prefix_of_mem_places` — all places of an edit lie within it.
-/

namespace CatalogEdit

/-! ## Building blocks -/

/-- A finite number that is greater than zero and at most one. -/
structure Binary64.IsUnitFraction (x : Binary64) : Prop where
  isFinite : x.isFinite
  positive : x.negative = false ∧ 0 < x.units
  le_one : x.units ≤ unitsOfOne

theorem isPrecision_iff {x : Binary64} : isPrecision x ↔ x.IsUnitFraction := by
  have hzero : 0 < x.units ↔ 0 < x.magnitude := Binary64.unitsOf_strictMono.lt_iff_lt (a := 0)
  have hone : x.units ≤ Binary64.unitsOfOne ↔ x.magnitude ≤ Binary64.one.magnitude := by
    rw [← Binary64.units_one]
    exact Binary64.unitsOf_strictMono.le_iff_le
  simp only [isPrecision, Bool.and_eq_true, Bool.not_eq_true', decide_eq_true_eq]
  constructor
  · rintro ⟨⟨hsign, hpos⟩, hle⟩
    have hfinite : x.isFinite := decide_eq_true (Nat.lt_of_le_of_lt hle (by decide))
    exact ⟨hfinite, ⟨hsign, hzero.mpr hpos⟩, hone.mpr hle⟩
  · rintro ⟨-, ⟨hsign, hpos⟩, hle⟩
    exact ⟨⟨hsign, hzero.mp hpos⟩, hone.mp hle⟩

/-- Three capitals. -/
structure IsCurrency (t : Text) : Prop where
  length : t.length = 3
  capitals : ∀ b ∈ t, Byte.isUpper b

theorem isCurrencyCode_iff {t : Text} : isCurrencyCode t ↔ IsCurrency t := by
  simp only [isCurrencyCode, Bool.and_eq_true, beq_iff_eq, List.all_eq_true]
  exact ⟨fun ⟨hlength, hcapitals⟩ => ⟨hlength, hcapitals⟩, fun h => ⟨h.length, h.capitals⟩⟩

/-! ## Changes -/

inductive PriceChange.Breaks (path : Path) (c : PriceChange) : Violation → Prop where
  | value (h : c.value.isFinite = false) : Breaks path c ⟨path.field "value", .finiteNumber⟩
  | currency {code : Text} (hcode : c.currency = some code) (h : ¬ IsCurrency code) :
      Breaks path c ⟨path.field "currency", .currencyCode⟩
  | precision {r : Rounding} (hrounding : c.rounding = some r)
      (h : ¬ r.precision.IsUnitFraction) :
      Breaks path c ⟨(path.field "round").field "precision", .unitInterval⟩

def PriceChange.places (path : Path) : List Path :=
  [path.field "value", path.field "currency", (path.field "round").field "precision"]

inductive TagChange.Breaks (path : Path) (c : TagChange) : Violation → Prop where
  | none (h : c.values = []) : Breaks path c ⟨path.field "values", .atLeastOneTag⟩
  | empty {index : Nat} (h : c.values[index]? = some []) :
      Breaks path c ⟨(path.field "values").item index, .notEmpty⟩

/-- The list of tags, then the tags one by one. -/
def TagChange.places (path : Path) (c : TagChange) : List Path :=
  path.field "values" :: (List.range c.values.length).map (path.field "values").item

inductive InventoryChange.Breaks (path : Path) (c : InventoryChange) : Violation → Prop where
  | value (h : c.value < 0) : Breaks path c ⟨path.field "value", .notNegative⟩
  | location (h : c.location = some []) : Breaks path c ⟨path.field "locationId", .notEmpty⟩

def InventoryChange.places (path : Path) : List Path :=
  [path.field "value", path.field "locationId"]

inductive Metafield.Breaks (path : Path) (m : Metafield) : Violation → Prop where
  | ns (h : m.ns = []) : Breaks path m ⟨path.field "ns", .notEmpty⟩
  | key (h : m.key = []) : Breaks path m ⟨path.field "key", .notEmpty⟩
  | type (h : m.type = []) : Breaks path m ⟨path.field "type", .notEmpty⟩
  | value {x : Binary64} (hvalue : m.value = some (.number x)) (h : x.isFinite = false) :
      Breaks path m ⟨path.field "value", .finiteNumber⟩

def Metafield.places (path : Path) : List Path :=
  [path.field "ns", path.field "key", path.field "type", path.field "value"]

inductive Seo.Breaks (path : Path) (s : Seo) : Violation → Prop where
  | title {t : Text} (htitle : s.title = some t) (h : 70 < t.codePoints) :
      Breaks path s ⟨path.field "title", .atMostCharacters 70⟩
  | description {t : Text} (hdescription : s.description = some t) (h : 320 < t.codePoints) :
      Breaks path s ⟨path.field "description", .atMostCharacters 320⟩

def Seo.places (path : Path) : List Path := [path.field "title", path.field "description"]

/-- A change of status cannot be wrong. -/
inductive Change.Breaks (path : Path) : Change → Violation → Prop where
  | price {c : PriceChange} {v : Violation} (h : c.Breaks path v) : Breaks path (.price c) v
  | compareAt {c : PriceChange} {v : Violation} (h : c.Breaks path v) :
      Breaks path (.compareAt c) v
  | tags {c : TagChange} {v : Violation} (h : c.Breaks path v) : Breaks path (.tags c) v
  | inventory {c : InventoryChange} {v : Violation} (h : c.Breaks path v) :
      Breaks path (.inventory c) v
  | metafield {m : Metafield} {v : Violation} (h : m.Breaks (path.field "metafield") v) :
      Breaks path (.metafield m) v
  | seo {s : Seo} {v : Violation} (h : s.Breaks (path.field "seo") v) : Breaks path (.seo s) v

def Change.places (path : Path) : Change → List Path
  | .price _ | .compareAt _ => PriceChange.places path
  | .tags c => c.places path
  | .inventory _ => InventoryChange.places path
  | .status _ => []
  | .metafield _ => Metafield.places (path.field "metafield")
  | .seo _ => Seo.places (path.field "seo")

/-! ## Edits and selections -/

inductive Edit.Breaks (e : Edit) : Violation → Prop where
  | schedule {s : Text} (hschedule : e.schedule = some s) (h : Timestamp.isTimestamp s = false) :
      Breaks e ⟨Edit.root.field "schedule", .timestamp⟩
  | change {v : Violation} (h : e.change.Breaks (Edit.root.field "params") v) : Breaks e v

/-- The schedule comes before the change. -/
def Edit.places (e : Edit) : List Path :=
  Edit.root.field "schedule" :: e.change.places (Edit.root.field "params")

inductive Selection.Breaks (s : Selection) : Violation → Prop where
  | priceAtLeast {x : Binary64} (hbound : s.numeric.priceAtLeast = some x)
      (h : x.isFinite = false) :
      Breaks s ⟨(Selection.root.field "numeric").field "priceGte", .finiteNumber⟩
  | priceAtMost {x : Binary64} (hbound : s.numeric.priceAtMost = some x)
      (h : x.isFinite = false) :
      Breaks s ⟨(Selection.root.field "numeric").field "priceLte", .finiteNumber⟩
  | inventoryEquals {x : Binary64} (hbound : s.numeric.inventoryEquals = some x)
      (h : x.isFinite = false) :
      Breaks s ⟨(Selection.root.field "numeric").field "inventoryEq", .finiteNumber⟩

def Selection.places : List Path :=
  ["priceGte", "priceLte", "inventoryEq"].map (Selection.root.field "numeric").field

/-! ## Responses -/

inductive Response.Breaks : Response → Violation → Prop where
  | planEdit {p : Plan} {v : Violation} (h : p.edit.Breaks v) : Breaks (.plan p) v
  | planSelection {p : Plan} {v : Violation} (h : p.selection.Breaks v) : Breaks (.plan p) v
  | noIssue {c : Clarification} (h : c.issues = []) :
      Breaks (.clarification c) ⟨Path.ofField "issues", .atLeastOneIssue⟩
  | messageKey {c : Clarification} {i : Issue} (hi : i ∈ c.issues) (h : i.messageKey = []) :
      Breaks (.clarification c) ⟨(Path.ofField "issues").field "messageKey", .notEmpty⟩
  | draftEdit {c : Clarification} {d : Draft} {e : Edit} {v : Violation} (hd : c.draft = some d)
      (he : d.edit = some e) (h : e.Breaks v) : Breaks (.clarification c) v
  | draftSelection {c : Clarification} {d : Draft} {s : Selection} {v : Violation}
      (hd : c.draft = some d) (hs : d.selection = some s) (h : s.Breaks v) :
      Breaks (.clarification c) v
  | code {r : Refusal} (h : r.code = []) :
      Breaks (.refusal r) ⟨Path.ofField "code", .notEmpty⟩

/-- The edit comes before the selection, and both come after the issues. All issues have their
message at one place. -/
def Response.places : Response → List Path
  | .plan p => p.edit.places ++ Selection.places
  | .clarification c =>
    [Path.ofField "issues", (Path.ofField "issues").field "messageKey"] ++
      (((c.draft.bind Draft.edit).map Edit.places).getD [] ++ Selection.places)
  | .refusal _ => [Path.ofField "code"]

/-! ## Places within a value -/

namespace Path

variable {p q : Path} {name name' : String} {index index' : Nat}

theorem prefix_field (p : Path) (name : String) : p <+: p.field name := List.prefix_append _ _

theorem prefix_item (p : Path) (index : Nat) : p <+: p.item index := List.prefix_append _ _

@[simp] theorem field_inj : p.field name = p.field name' ↔ name = name' := by
  simp [field, utf8_inj]

@[simp] theorem item_inj : p.item index = p.item index' ↔ index = index' := by simp [item]

/-- What lies within one field of a value does not lie within another one. -/
theorem not_prefix_field_field (h : name ≠ name') (hq : p.field name <+: q) :
    ¬ p.field name' <+: q := by
  intro hq'
  have hlength : (p.field name).length = (p.field name').length := by simp [field]
  exact h (field_inj.mp ((List.prefix_of_prefix_length_le hq hq' hlength.le).eq_of_length hlength))

end Path

theorem Change.prefix_of_mem_places {path p : Path} {change : Change}
    (h : p ∈ change.places path) : path <+: p := by
  cases change with
  | price c | compareAt c =>
    simp only [places, PriceChange.places, List.mem_cons, List.not_mem_nil, or_false] at h
    rcases h with rfl | rfl | rfl
    · exact Path.prefix_field _ _
    · exact Path.prefix_field _ _
    · exact (Path.prefix_field _ _).trans (Path.prefix_field _ _)
  | tags c =>
    simp only [places, TagChange.places, List.mem_cons, List.mem_map] at h
    rcases h with rfl | ⟨index, -, rfl⟩
    · exact Path.prefix_field _ _
    · exact (Path.prefix_field _ _).trans (Path.prefix_item _ _)
  | inventory c =>
    simp only [places, InventoryChange.places, List.mem_cons, List.not_mem_nil, or_false] at h
    rcases h with rfl | rfl <;> exact Path.prefix_field _ _
  | status s => exact absurd h List.not_mem_nil
  | metafield m =>
    simp only [places, Metafield.places, List.mem_cons, List.not_mem_nil, or_false] at h
    rcases h with rfl | rfl | rfl | rfl <;>
      exact (Path.prefix_field _ _).trans (Path.prefix_field _ _)
  | seo s =>
    simp only [places, Seo.places, List.mem_cons, List.not_mem_nil, or_false] at h
    rcases h with rfl | rfl <;> exact (Path.prefix_field _ _).trans (Path.prefix_field _ _)

theorem Edit.prefix_of_mem_places {p : Path} {e : Edit} (h : p ∈ e.places) : Edit.root <+: p := by
  rcases List.mem_cons.mp h with rfl | h
  · exact Path.prefix_field _ _
  · exact (Path.prefix_field _ _).trans (Change.prefix_of_mem_places h)

theorem Selection.prefix_of_mem_places {p : Path} (h : p ∈ places) : Selection.root <+: p := by
  obtain ⟨name, -, rfl⟩ := List.mem_map.mp h
  exact (Path.prefix_field _ _).trans (Path.prefix_field _ _)

end CatalogEdit
