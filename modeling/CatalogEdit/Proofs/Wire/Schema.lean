import CatalogEdit.Proofs.Wire.Acceptance
import CatalogEdit.Proofs.Wire.Complaint
import CatalogEdit.Proofs.Wire.Shape

/-!
# The schema of edits

The JSON values that are decoded as an edit are described field by field. The schema holds both what
the reader asks for, the sorts of the values and the names of the choices, and what the rules ask
for, so it does not say which of the two rejects a value. The answer to a rejected value does: it
begins with the place of the edit if the value could not be read, and with the heading of broken
rules if it could.

## Main definitions

* `Change.Schema` — the fields that a change of each operation has.
* `Edit.Schema` — the values that are written edits.

## Main statements

* `Edit.decode_iff_schema` — exactly these are decoded, and how every other one is answered.
* `Edit.decode_empty_tag` — an answer that does not begin with the place of the edit.
-/

namespace CatalogEdit

open Json

/-! ## Prices -/

structure Rounding.Schema (fields : List (Text × Json)) : Prop where
  precision : Requires fields "precision" (IsNumber Binary64.IsUnitFraction)
  endWith : AllowsNull fields "endWith" (IsText fun _ => True)
  mode : Allows fields "mode" (IsName RoundingMode)

structure PriceChange.Schema (fields : List (Text × Json)) : Prop where
  mode : Requires fields "mode" (IsName PriceMode)
  value : Requires fields "value" (IsNumber fun x => x.isFinite)
  currency : AllowsNull fields "currency" (IsText IsCurrency)
  rounding : Allows fields "round" (IsObject Rounding.Schema)

theorem Rounding.accepts_read :
    Accepts Rounding.read (fun r => r.precision.IsUnitFraction) (IsObject Schema) := by
  refine accepts_object fun f => ?_
  simp only [Except.bind_eq_ok]
  constructor
  · rintro ⟨r, ⟨precision, hprecision, endWith, hendWith, mode, hmode, hr⟩, hsound⟩
    obtain rfl := Except.ok.inj hr
    exact
      { precision := accepts_number.required.mp ⟨precision, hprecision, hsound⟩
        endWith := accepts_text.optional.mp ⟨endWith, hendWith, fun _ _ => trivial⟩
        mode := (accepts_named.ifPresent _ trivial).mp ⟨mode, hmode, trivial⟩ }
  · intro h
    obtain ⟨precision, hprecision, hsound⟩ := accepts_number.required.mpr h.precision
    obtain ⟨endWith, hendWith, -⟩ := accepts_text.optional.mpr h.endWith
    obtain ⟨mode, hmode, -⟩ := (accepts_named.ifPresent .nearest trivial).mpr h.mode
    exact ⟨_, ⟨precision, hprecision, endWith, hendWith, mode, hmode, rfl⟩, hsound⟩

theorem PriceChange.violations_eq_nil_iff {path : Path} {c : PriceChange} :
    c.violations path = [] ↔ c.value.isFinite ∧ (∀ code ∈ c.currency, IsCurrency code) ∧
      ∀ r ∈ c.rounding, r.precision.IsUnitFraction := by
  simp [violations, isCurrencyCode_iff, isPrecision_iff]

theorem PriceChange.accepts_read (path : Path) (f : Fields) :
    (∃ c, PriceChange.read f = .ok c ∧ c.violations path = []) ↔ Schema f.entries := by
  simp only [PriceChange.read, Except.bind_eq_ok, violations_eq_nil_iff]
  constructor
  · rintro ⟨c, ⟨mode, hmode, value, hvalue, currency, hcurrency, rounding, hrounding, hc⟩,
      hfinite, hcode, hprecision⟩
    obtain rfl := Except.ok.inj hc
    exact
      { mode := accepts_named.required.mp ⟨mode, hmode, trivial⟩
        value := accepts_number.required.mp ⟨value, hvalue, hfinite⟩
        currency := accepts_text.optional.mp ⟨currency, hcurrency, hcode⟩
        rounding := Rounding.accepts_read.ifPresent_some.mp ⟨rounding, hrounding, hprecision⟩ }
  · intro h
    obtain ⟨mode, hmode, -⟩ := accepts_named.required.mpr h.mode
    obtain ⟨value, hvalue, hfinite⟩ := accepts_number.required.mpr h.value
    obtain ⟨currency, hcurrency, hcode⟩ := accepts_text.optional.mpr h.currency
    obtain ⟨rounding, hrounding, hprecision⟩ :=
      Rounding.accepts_read.ifPresent_some.mpr h.rounding
    exact ⟨_, ⟨mode, hmode, value, hvalue, currency, hcurrency, rounding, hrounding, rfl⟩,
      hfinite, hcode, hprecision⟩

/-! ## Tags -/

structure TagChange.Schema (fields : List (Text × Json)) : Prop where
  mode : Requires fields "mode" (IsName TagMode)
  values : Requires fields "values" (IsTexts fun tags => tags ≠ [] ∧ ∀ t ∈ tags, t ≠ [])

theorem TagChange.violations_eq_nil_iff {path : Path} {c : TagChange} :
    c.violations path = [] ↔ c.values ≠ [] ∧ ∀ t ∈ c.values, t ≠ [] := by
  have htags : (∀ entry ∈ c.values.zipIdx, entry.1 ≠ []) ↔ ∀ t ∈ c.values, t ≠ [] := by
    conv_rhs => rw [← List.zipIdx_map_fst 0 c.values, List.forall_mem_map]
  simp [violations, ← htags]

theorem TagChange.accepts_read (path : Path) (f : Fields) :
    (∃ c, TagChange.read f = .ok c ∧ c.violations path = []) ↔ Schema f.entries := by
  simp only [TagChange.read, Except.bind_eq_ok, violations_eq_nil_iff]
  constructor
  · rintro ⟨c, ⟨mode, hmode, values, hvalues, hc⟩, hsound⟩
    obtain rfl := Except.ok.inj hc
    exact
      { mode := accepts_named.required.mp ⟨mode, hmode, trivial⟩
        values := accepts_texts.required.mp ⟨values, hvalues, hsound⟩ }
  · intro h
    obtain ⟨mode, hmode, -⟩ := accepts_named.required.mpr h.mode
    obtain ⟨values, hvalues, hsound⟩ := accepts_texts.required.mpr h.values
    exact ⟨_, ⟨mode, hmode, values, hvalues, rfl⟩, hsound⟩

/-! ## Quantities -/

/-- A whole number from zero to `2 ^ 53 - 1`, written in either way. -/
inductive InventoryChange.IsQuantity : Json → Prop where
  | integer {n : Nat} (hmax : n ≤ maxSize) : IsQuantity (.integer n)
  | number {x : Binary64} {n : Nat} (hmax : n ≤ maxSize) (hfinite : x.isFinite)
      (hunits : x.units = n * Binary64.unitsOfOne) (hsign : x.negative → n = 0) :
      IsQuantity (.number x)

structure InventoryChange.Schema (fields : List (Text × Json)) : Prop where
  mode : Requires fields "mode" (IsName InventoryMode)
  value : Requires fields "value" IsQuantity
  location : AllowsNull fields "locationId" (IsText (· ≠ []))

theorem InventoryChange.readValue_eq_ok {c : Cursor} {n : Int} :
    readValue c = .ok n ↔ ∃ x, c.number = .ok x ∧ x.toInt? = some n ∧ n.natAbs ≤ maxSize := by
  simp only [readValue, Except.bind_eq_ok]
  refine exists_congr fun x => and_congr_right fun _ => ?_
  cases hx : x.toInt? with
  | none => simp [Cursor.mismatch]
  | some m =>
    by_cases hm : m.natAbs ≤ maxSize
    · have hn : m = n → n.natAbs ≤ maxSize := fun heq => heq ▸ hm
      simpa [Option.filter, hm] using hn
    · have hn : m = n → ¬ n.natAbs ≤ maxSize := fun heq => heq ▸ hm
      simpa [Option.filter, hm, Cursor.mismatch] using hn

theorem InventoryChange.accepts_readValue : Accepts readValue (0 ≤ ·) IsQuantity := by
  rintro ⟨path, j⟩
  constructor
  · rintro ⟨n, hn, hnonneg⟩
    obtain ⟨x, hx, hwhole, hmax⟩ := readValue_eq_ok.mp hn
    obtain ⟨k, rfl⟩ := Int.eq_ofNat_of_zero_le hnonneg
    cases j with
    | integer m =>
      have hm := natAbs_le_of_readValue hn
      obtain rfl : m = k := Except.ok.inj ((readValue_integer path hm).symm.trans hn)
      exact .integer (by simpa using hm)
    | number y =>
      obtain rfl : y = x := Except.ok.inj hx
      obtain ⟨hfinite, hunits, -, hsign⟩ := Binary64.toInt?_eq_some_iff.mp hwhole
      refine .number (n := k) (by simpa using hmax) hfinite (by simpa using hunits) fun hneg => ?_
      by_contra hzero
      exact absurd (hsign (by omega)) (by simp [hneg])
    | null | bool | string | array | object => contradiction
  · intro h
    cases h with
    | @integer n hmax => exact ⟨n, readValue_integer path (by simpa using hmax), by omega⟩
    | @number x n hmax hfinite hunits hsign =>
      refine ⟨n, readValue_eq_ok.mpr ⟨x, rfl, ?_, by simpa using hmax⟩, by omega⟩
      refine Binary64.toInt?_eq_some_iff.mpr ⟨hfinite, by simpa using hunits, by omega, ?_⟩
      intro hpos
      by_contra hneg
      have := hsign (by simpa using hneg)
      omega

theorem InventoryChange.violations_eq_nil_iff {path : Path} {c : InventoryChange} :
    c.violations path = [] ↔ 0 ≤ c.value ∧ ∀ t ∈ c.location, t ≠ [] := by
  simp [violations]

theorem InventoryChange.accepts_read (path : Path) (f : Fields) :
    (∃ c, InventoryChange.read f = .ok c ∧ c.violations path = []) ↔ Schema f.entries := by
  simp only [InventoryChange.read, Except.bind_eq_ok, violations_eq_nil_iff]
  constructor
  · rintro ⟨c, ⟨mode, hmode, value, hvalue, location, hlocation, hc⟩, hnonneg, hnonempty⟩
    obtain rfl := Except.ok.inj hc
    exact
      { mode := accepts_named.required.mp ⟨mode, hmode, trivial⟩
        value := accepts_readValue.required.mp ⟨value, hvalue, hnonneg⟩
        location := accepts_text.optional.mp ⟨location, hlocation, hnonempty⟩ }
  · intro h
    obtain ⟨mode, hmode, -⟩ := accepts_named.required.mpr h.mode
    obtain ⟨value, hvalue, hnonneg⟩ := accepts_readValue.required.mpr h.value
    obtain ⟨location, hlocation, hnonempty⟩ := accepts_text.optional.mpr h.location
    exact ⟨_, ⟨mode, hmode, value, hvalue, location, hlocation, rfl⟩, hnonneg, hnonempty⟩

/-! ## Metafields -/

/-- Anything but an array, an object or a number that is not finite. -/
def MetafieldValue.Schema (j : Json) : Prop :=
  j = .null ∨ IsText (fun _ => True) j ∨ (∃ b, j = .bool b) ∨ IsNumber (fun x => x.isFinite) j

structure Metafield.Schema (fields : List (Text × Json)) : Prop where
  ns : Requires fields "ns" (IsText (· ≠ []))
  key : Requires fields "key" (IsText (· ≠ []))
  type : Requires fields "type" (IsText (· ≠ []))
  value : Allows fields "value" MetafieldValue.Schema

theorem MetafieldValue.accepts_read (path : Path) :
    Accepts MetafieldValue.read (fun value => value.violations path = []) Schema := by
  rintro ⟨_, j⟩
  cases j with
  | null | bool | integer | number | string | array | object =>
    simp [MetafieldValue.read, Schema, IsText, IsNumber, toBinary64?, violations, Cursor.mismatch]

theorem Metafield.violations_eq_nil_iff {path : Path} {m : Metafield} :
    m.violations path = [] ↔ m.ns ≠ [] ∧ m.key ≠ [] ∧ m.type ≠ [] ∧
      ∀ value ∈ m.value, value.violations (path.field "value") = [] := by
  simp [violations]

theorem Metafield.accepts_read (path : Path) :
    Accepts Metafield.read (fun m => m.violations path = []) (IsObject Schema) := by
  refine accepts_object fun f => ?_
  simp only [Except.bind_eq_ok, violations_eq_nil_iff]
  constructor
  · rintro ⟨m, ⟨ns, hns, key, hkey, type, htype, value, hvalue, hm⟩,
      hnsNe, hkeyNe, htypeNe, hsound⟩
    obtain rfl := Except.ok.inj hm
    exact
      { ns := accepts_text.required.mp ⟨ns, hns, hnsNe⟩
        key := accepts_text.required.mp ⟨key, hkey, hkeyNe⟩
        type := accepts_text.required.mp ⟨type, htype, htypeNe⟩
        value := (MetafieldValue.accepts_read _).ifPresent_some.mp ⟨value, hvalue, hsound⟩ }
  · intro h
    obtain ⟨ns, hns, hnsNe⟩ := accepts_text.required.mpr h.ns
    obtain ⟨key, hkey, hkeyNe⟩ := accepts_text.required.mpr h.key
    obtain ⟨type, htype, htypeNe⟩ := accepts_text.required.mpr h.type
    obtain ⟨value, hvalue, hsound⟩ :=
      (MetafieldValue.accepts_read _).ifPresent_some.mpr h.value
    exact ⟨_, ⟨ns, hns, key, hkey, type, htype, value, hvalue, rfl⟩,
      hnsNe, hkeyNe, htypeNe, hsound⟩

/-! ## Search-engine texts -/

structure Seo.Schema (fields : List (Text × Json)) : Prop where
  title : AllowsNull fields "title" (IsText (·.codePoints ≤ maxTitle))
  description : AllowsNull fields "description" (IsText (·.codePoints ≤ maxDescription))

theorem Seo.violations_eq_nil_iff {path : Path} {s : Seo} :
    s.violations path = [] ↔ (∀ t ∈ s.title, t.codePoints ≤ maxTitle) ∧
      ∀ t ∈ s.description, t.codePoints ≤ maxDescription := by
  simp [violations, atMostCharacters]

theorem Seo.accepts_read (path : Path) :
    Accepts Seo.read (fun s => s.violations path = []) (IsObject Schema) := by
  refine accepts_object fun f => ?_
  simp only [Except.bind_eq_ok, violations_eq_nil_iff]
  constructor
  · rintro ⟨s, ⟨title, htitle, description, hdescription, hs⟩, hlimit, hlimit'⟩
    obtain rfl := Except.ok.inj hs
    exact
      { title := accepts_text.optional.mp ⟨title, htitle, hlimit⟩
        description := accepts_text.optional.mp ⟨description, hdescription, hlimit'⟩ }
  · intro h
    obtain ⟨title, htitle, hlimit⟩ := accepts_text.optional.mpr h.title
    obtain ⟨description, hdescription, hlimit'⟩ := accepts_text.optional.mpr h.description
    exact ⟨_, ⟨title, htitle, description, hdescription, rfl⟩, hlimit, hlimit'⟩

/-! ## Changes -/

/-- What the parameters of an operation are. -/
def Change.Schema : Operation → List (Text × Json) → Prop
  | .price | .compareAt => PriceChange.Schema
  | .tags => TagChange.Schema
  | .inventory => InventoryChange.Schema
  | .status => fun fields => Requires fields "status" (IsName Status)
  | .metafield => fun fields => Requires fields "metafield" (IsObject Metafield.Schema)
  | .seo => fun fields => Requires fields "seo" (IsObject Seo.Schema)

/-- A change is sound if what it is made from is. -/
theorem Change.exists_map_iff {α : Type} {x : Except Mismatch α} {make : α → Change}
    {path : Path} :
    (∃ change, make <$> x = .ok change ∧ change.violations path = []) ↔
      ∃ a, x = .ok a ∧ (make a).violations path = [] := by
  constructor
  · rintro ⟨change, hchange, hsound⟩
    obtain ⟨a, ha, rfl⟩ := Except.map_eq_ok.mp hchange
    exact ⟨a, ha, hsound⟩
  · rintro ⟨a, ha, hsound⟩
    exact ⟨make a, Except.map_eq_ok.mpr ⟨a, ha, rfl⟩, hsound⟩

theorem Change.accepts_read (path : Path) (operation : Operation) :
    Accepts (Change.read operation) (fun change => change.violations path = [])
      (IsObject (Schema operation)) := by
  refine accepts_object fun f => ?_
  cases operation with
  | price | compareAt => exact exists_map_iff.trans (PriceChange.accepts_read path f)
  | tags => exact exists_map_iff.trans (TagChange.accepts_read path f)
  | inventory => exact exists_map_iff.trans (InventoryChange.accepts_read path f)
  | status =>
    refine exists_map_iff.trans (Iff.trans ?_ accepts_named.required)
    simp [violations]
  | metafield => exact exists_map_iff.trans (Metafield.accepts_read _).required
  | seo => exact exists_map_iff.trans (Seo.accepts_read _).required

/-! ## Edits -/

structure Edit.FieldsSchema (kind : Operation) (fields : List (Text × Json)) : Prop where
  operation : Requires fields "operation" (· = .string (Named.name kind))
  scope : Allows fields "scope" (IsName Scope)
  schedule : AllowsNull fields "schedule" (IsText fun s => Timestamp.isTimestamp s)
  params : Requires fields "params" (IsObject (Change.Schema kind))

/-- An object that names one of the operations and has the parameters of it. -/
def Edit.Schema (j : Json) : Prop :=
  IsObject (fun fields => ∃ kind, FieldsSchema kind fields) j

theorem Edit.violations_eq_nil_iff {e : Edit} :
    e.violations = [] ↔ (∀ s ∈ e.schedule, Timestamp.isTimestamp s) ∧
      e.change.violations (root.field "params") = [] := by
  simp [violations]

theorem Edit.accepts_read : Accepts Edit.read (fun e => e.violations = []) Schema := by
  refine accepts_object fun f => ?_
  simp only [Except.bind_eq_ok, violations_eq_nil_iff]
  constructor
  · rintro ⟨e, ⟨operation, hoperation, scope, hscope, schedule, hschedule, change, hchange, he⟩,
      htimestamp, hsound⟩
    obtain rfl := Except.ok.inj he
    exact ⟨operation,
      { operation := accepts_name.required.mp ⟨operation, hoperation, rfl⟩
        scope := (accepts_named.ifPresent _ trivial).mp ⟨scope, hscope, trivial⟩
        schedule := accepts_text.optional.mp ⟨schedule, hschedule, htimestamp⟩
        params := (Change.accepts_read _ operation).required.mp ⟨change, hchange, hsound⟩ }⟩
  · rintro ⟨operation, h⟩
    obtain ⟨_, hoperation, rfl⟩ := accepts_name.required.mpr h.operation
    obtain ⟨scope, hscope, -⟩ := (accepts_named.ifPresent .product trivial).mpr h.scope
    obtain ⟨schedule, hschedule, htimestamp⟩ := accepts_text.optional.mpr h.schedule
    obtain ⟨change, hchange, hsound⟩ := (Change.accepts_read _ _).required.mpr h.params
    exact ⟨_, ⟨_, hoperation, scope, hscope, schedule, hschedule, change, hchange, rfl⟩,
      htimestamp, hsound⟩

/-- What can be read is decoded if it breaks no rule. -/
theorem Edit.decode_of_read {j : Json} {e : Edit} (h : Edit.read ⟨root, j⟩ = .ok e) :
    decode j = e.check.mapError .violation := by
  simp [decode, h]

theorem Edit.exists_decode_iff {j : Json} :
    (∃ e, decode j = .ok e) ↔ ∃ e, Edit.read ⟨root, j⟩ = .ok e ∧ e.violations = [] := by
  constructor
  · rintro ⟨e, h⟩
    obtain ⟨e', hread, hcheck⟩ := Except.bind_eq_ok.mp h
    obtain ⟨hsound, rfl⟩ := check_eq_ok.mp (Except.mapError_eq_ok.mp hcheck)
    exact ⟨e', Except.mapError_eq_ok.mp hread, hsound⟩
  · rintro ⟨e, hread, hsound⟩
    exact ⟨e, by rw [decode_of_read hread, check_eq_ok.mpr ⟨hsound, rfl⟩, Except.mapError_ok]⟩

/-- How a value that is not decoded is answered: it cannot be read, or it breaks a rule. -/
theorem Edit.begins_of_decode_eq_error {j : Json} {error : WireError}
    (h : decode j = .error error) :
    (¬ ∃ e, Edit.read ⟨root, j⟩ = .ok e) ∧ utf8 "opSpec" <+: error.message ∨
      (∃ e, Edit.read ⟨root, j⟩ = .ok e) ∧ utf8 "schema violation: opSpec" <+: error.message := by
  cases hread : Edit.read ⟨root, j⟩ with
  | error m =>
    have hm : error = .mismatch m := by simpa [decode, hread, bind, Except.bind, eq_comm] using h
    subst hm
    exact .inl ⟨by simp, m.prefix_message (by decide) (pointsInto_read _ m hread)⟩
  | ok e =>
    rw [decode_of_read hread] at h
    cases hcheck : e.check with
    | ok e' => simp [hcheck] at h
    | error v =>
      obtain rfl : WireError.violation v = error := by simpa [hcheck] using h
      exact .inr ⟨⟨e, rfl⟩, v.prefix_message (root_prefix_of_check hcheck)⟩

/-- Exactly the values of the schema are decoded. Every other one is answered by a message that
begins with the place of the edit if it cannot be read, and with the heading of broken rules and
the place of the edit if it can. -/
theorem Edit.decode_iff_schema (j : Json) :
    ((∃ e, decode j = .ok e) ↔ Schema j) ∧
      ((∃ error, decode j = .error error ∧
        ((¬ ∃ e, Edit.read ⟨root, j⟩ = .ok e) ∧ utf8 "opSpec" <+: error.message ∨
          (∃ e, Edit.read ⟨root, j⟩ = .ok e) ∧
            utf8 "schema violation: opSpec" <+: error.message)) ↔ ¬ Schema j) := by
  have hschema : (∃ e, decode j = .ok e) ↔ Schema j :=
    exists_decode_iff.trans (accepts_read ⟨root, j⟩)
  refine ⟨hschema, ?_⟩
  rw [← hschema]
  cases h : decode j with
  | ok e => simp
  | error error =>
    have hbegins := begins_of_decode_eq_error h
    simp only [Except.error.injEq, exists_eq_left', reduceCtorEq, exists_false, not_false_eq_true,
      iff_true]
    exact hbegins

/-- An empty tag is a broken rule: the place of the edit does not come first in the answer. -/
theorem Edit.decode_empty_tag :
    let tags : Json :=
      .object [(utf8 "mode", .string (utf8 "add")), (utf8 "values", .array [.string []])]
    let j : Json :=
      .object [(utf8 "operation", .string (utf8 "tags")), (utf8 "params", tags)]
    let answer := WireError.violation ⟨((root.field "params").field "values").item 0, .notEmpty⟩
    decode j = .error answer ∧
      answer.message = utf8 "schema violation: opSpec.params.values[0]: must not be empty" ∧
      ¬ ∀ j error, decode j = .error error → utf8 "o" <+: error.message := by
  intro tags j answer
  have hdecode : decode j = .error answer := by decide +kernel
  have hmessage : answer.message =
      utf8 "schema violation: opSpec.params.values[0]: must not be empty" := by
    decide +kernel
  refine ⟨hdecode, hmessage, fun h => ?_⟩
  have hbegins := h j answer hdecode
  rw [hmessage] at hbegins
  exact absurd hbegins (by decide +kernel)

end CatalogEdit
