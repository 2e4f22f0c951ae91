import CatalogEdit.Proofs.Wire.RoundTrip

/-!
# The normal form of a written edit

Decoding an edit and writing it again brings a JSON value into its normal form: unknown fields
and nulls are gone, defaults are written out, and every field that remains is one of the wire
format. A value in normal form stays as it is.

## Main definitions

* `Json.HasField` — a sequence of names leads from a value to one inside it.
* `Edit.fieldPaths` — where the fields of an edit stand.
* `Json.IsNormalEdit` — known fields only, no null but the value of a metafield, no default left
  out.
* `Edit.normalize` — decode and write again.

## Main statements

* `Edit.isNormalEdit_encode` — every written edit is in normal form.
* `Edit.normalize_idempotent` — decoding what was decoded and written changes nothing.
-/

namespace CatalogEdit

namespace Json

/-! ## Fields inside a value -/

/-- The names of `path` lead from object to object, and the last one to `v`. -/
inductive HasField : Json → List Text → Json → Prop where
  | here {fields : List (Text × Json)} {name : Text} {v : Json} (h : (name, v) ∈ fields) :
      HasField (.object fields) [name] v
  | within {fields : List (Text × Json)} {name : Text} {v w : Json} {path : List Text}
      (h : (name, v) ∈ fields) (hfield : HasField v path w) :
      HasField (.object fields) (name :: path) w

theorem HasField.append {j v w : Json} {path path' : List Text} (h : HasField j path v)
    (h' : HasField v path' w) : HasField j (path ++ path') w := by
  induction h with
  | here hmem => exact .within hmem h'
  | within hmem _ ih => exact .within hmem (ih h')

/-- Every field inside a value is as `P` says of its place and its value. -/
def AllFields (P : List Text → Json → Prop) (j : Json) : Prop :=
  ∀ path v, HasField j path v → P path v

/-- The same for the fields of an object and all fields inside them. -/
def AllEntries (P : List Text → Json → Prop) (fields : List (Text × Json)) : Prop :=
  ∀ f ∈ fields, P [f.1] f.2 ∧ AllFields (fun path v => P (f.1 :: path) v) f.2

section AllFields

variable {P : List Text → Json → Prop}

@[simp] theorem allFields_object {fields : List (Text × Json)} :
    AllFields P (.object fields) ↔ AllEntries P fields := by
  constructor
  · intro h f hf
    exact ⟨h _ _ (.here hf), fun path v hv => h _ _ (.within hf hv)⟩
  · rintro h path v (hf | ⟨hf, hv⟩)
    · exact (h _ hf).1
    · exact (h _ hf).2 _ _ hv

@[simp] theorem allFields_null : AllFields P .null := nofun

@[simp] theorem allFields_bool {b : Bool} : AllFields P (.bool b) := nofun

@[simp] theorem allFields_integer {n : Int} : AllFields P (.integer n) := nofun

@[simp] theorem allFields_number {x : Binary64} : AllFields P (.number x) := nofun

@[simp] theorem allFields_string {t : Text} : AllFields P (.string t) := nofun

@[simp] theorem allFields_array {items : List Json} : AllFields P (.array items) := nofun

/-- No field stands at the empty place. -/
@[simp] theorem allFields_root {Q : Json → Prop} {j : Json} :
    AllFields (fun path v => path = [] → Q v) j := by
  rintro path v (h | h) hpath <;> contradiction

@[simp] theorem allEntries_nil : AllEntries P [] := nofun

@[simp] theorem allEntries_cons {name : Text} {v : Json} {fields : List (Text × Json)} :
    AllEntries P ((name, v) :: fields) ↔
      (P [name] v ∧ AllFields (fun path w => P (name :: path) w) v) ∧ AllEntries P fields :=
  List.forall_mem_cons

@[simp] theorem allEntries_append {fields fields' : List (Text × Json)} :
    AllEntries P (fields ++ fields') ↔ AllEntries P fields ∧ AllEntries P fields' :=
  List.forall_mem_append

@[simp] theorem allEntries_fieldOfOption {α : Type} {name : String} {encode : α → Json}
    {o : Option α} :
    AllEntries P (fieldOfOption name encode o) ↔
      ∀ a ∈ o, P [utf8 name] (encode a) ∧
        AllFields (fun path v => P (utf8 name :: path) v) (encode a) := by
  cases o with
  | none => simp [fieldOfOption]
  | some a => simp [fieldOfOption]

@[simp] theorem allFields_encodeName {α : Type} [Named α] (a : α) : AllFields P (encodeName a) :=
  allFields_string

@[simp] theorem allFields_encodeTexts (ts : List Text) : AllFields P (encodeTexts ts) :=
  allFields_array

end AllFields

@[simp] theorem encodeName_ne_null {α : Type} [Named α] (a : α) : encodeName a ≠ .null := nofun

@[simp] theorem encodeTexts_ne_null (ts : List Text) : encodeTexts ts ≠ .null := nofun

end Json

open Json

/-! ## The normal form -/

/-- Where the fields of an edit stand. -/
def Edit.fieldPaths : List (List Text) :=
  [["operation"], ["scope"], ["schedule"], ["params"], ["params", "mode"], ["params", "value"],
    ["params", "currency"], ["params", "round"], ["params", "round", "precision"],
    ["params", "round", "endWith"], ["params", "round", "mode"], ["params", "values"],
    ["params", "locationId"], ["params", "status"], ["params", "metafield"],
    ["params", "metafield", "ns"], ["params", "metafield", "key"],
    ["params", "metafield", "type"], ["params", "metafield", "value"], ["params", "seo"],
    ["params", "seo", "title"], ["params", "seo", "description"]].map (·.map utf8)

/-- A value with the fields of an edit only, in which nothing is null but the value of a metafield
and no default is left out. -/
structure Json.IsNormalEdit (j : Json) : Prop where
  known : ∀ path v, HasField j path v → path ∈ Edit.fieldPaths
  null_only : ∀ path, HasField j path .null → path = ["params", "metafield", "value"].map utf8
  scope : ∃ s : Scope, HasField j (["scope"].map utf8) (encodeName s)
  rounding : ∀ v, HasField j (["params", "round"].map utf8) v →
    ∃ m : RoundingMode, HasField j (["params", "round", "mode"].map utf8) (encodeName m)

@[simp] theorem MetafieldValue.allFields_encode {P : List Text → Json → Prop}
    (v : MetafieldValue) : AllFields P v.encode := by
  cases v <;> simp [encode]

theorem Edit.known_encode (e : Edit) :
    AllFields (fun path v => path ∈ fieldPaths ∧
      (v = .null → path = ["params", "metafield", "value"].map utf8)) e.encode := by
  obtain ⟨scope, schedule, change⟩ := e
  cases change with
  | price c | compareAt c =>
    simp [encode, Change.encode, PriceChange.encode, Rounding.encode, fieldPaths, utf8_inj]
  | tags c => simp [encode, Change.encode, TagChange.encode, fieldPaths, utf8_inj]
  | inventory c => simp [encode, Change.encode, InventoryChange.encode, fieldPaths, utf8_inj]
  | status s => simp [encode, Change.encode, fieldPaths, utf8_inj]
  | metafield m => simp [encode, Change.encode, Metafield.encode, fieldPaths, utf8_inj]
  | seo s => simp [encode, Change.encode, Seo.encode, fieldPaths, utf8_inj]

theorem Rounding.exists_mode (r : Rounding) :
    ∃ m : RoundingMode, HasField r.encode [utf8 "mode"] (encodeName m) :=
  ⟨r.mode, .here (by simp)⟩

theorem Edit.rounding_encode (e : Edit) :
    AllFields (fun path v => path = ["params", "round"].map utf8 →
      ∃ m : RoundingMode, HasField v [utf8 "mode"] (encodeName m)) e.encode := by
  obtain ⟨scope, schedule, change⟩ := e
  cases change with
  | price c | compareAt c =>
    simp [encode, Change.encode, PriceChange.encode, utf8_inj, Rounding.exists_mode]
  | tags c => simp [encode, Change.encode, TagChange.encode, utf8_inj]
  | inventory c => simp [encode, Change.encode, InventoryChange.encode, utf8_inj]
  | status s => simp [encode, Change.encode, utf8_inj]
  | metafield m => simp [encode, Change.encode, Metafield.encode, utf8_inj]
  | seo s => simp [encode, Change.encode, Seo.encode, utf8_inj]

theorem Edit.isNormalEdit_encode (e : Edit) : e.encode.IsNormalEdit where
  known path v h := (e.known_encode path v h).1
  null_only path h := (e.known_encode path .null h).2 rfl
  scope := ⟨e.scope, .here (by simp)⟩
  rounding v h := by
    obtain ⟨m, hm⟩ := e.rounding_encode _ v h rfl
    exact ⟨m, h.append hm⟩

/-! ## Normalisation -/

/-- Decode an edit and write it again. -/
def Edit.normalize (j : Json) : Except WireError Json := Edit.encode <$> Edit.decode j

/-- Whatever is decoded can be written and decoded again without a change, so that writing what was
decoded brings a value into a normal form that stays as it is. -/
theorem Edit.normalize_idempotent {j : Json} {e : Edit} (h : Edit.decode j = .ok e) :
    Edit.decode e.encode = .ok e ∧ Edit.normalize j = .ok e.encode ∧
      Edit.normalize e.encode = .ok e.encode ∧ e.encode.IsNormalEdit := by
  obtain ⟨hsound, hfits⟩ := Edit.sound_of_decode h
  have hagain : Edit.decode e.encode = .ok e := Edit.decode_encode hfits hsound
  refine ⟨hagain, ?_, ?_, e.isNormalEdit_encode⟩
  · rw [Edit.normalize, h, Except.map_ok]
  · rw [Edit.normalize, hagain, Except.map_ok]

/-- Two defaults, three nulls and two unknown fields at once. -/
theorem Edit.normalize_idempotent_compareAt :
    let j : Json := .object
      [(utf8 "note", .array [.null]), (utf8 "operation", .string (utf8 "compare_at")),
        (utf8 "params", .object
          [(utf8 "currency", .null), (utf8 "mode", .string (utf8 "set")),
            (utf8 "round", .object
              [(utf8 "endWith", .null), (utf8 "places", .integer 2),
                (utf8 "precision", .integer 1)]),
            (utf8 "value", .integer (-5))]),
        (utf8 "schedule", .null)]
    let e : Edit :=
      { change := .compareAt
          { mode := .set, value := Binary64.ofInt (-5),
            rounding := some { precision := Binary64.one } } }
    Edit.decode j = .ok e ∧ Edit.decode e.encode = .ok e ∧ Edit.normalize j = .ok e.encode ∧
      Edit.normalize e.encode = .ok e.encode ∧ e.encode.IsNormalEdit :=
  have h : Edit.decode _ = .ok _ := Except.toOption_eq_some.mp (by decide +kernel)
  ⟨h, Edit.normalize_idempotent h⟩

end CatalogEdit
