import CatalogEdit.Proofs.Wire.Fields

/-!
# Shapes of JSON values

Which values a reader takes is said by a predicate on values that knows nothing of readers. Such a
predicate is put together from the shapes of the fields, each of which has to be there, may be
absent, or may be absent or null; the three ways to read a field carry the correspondence on from
the value of the field to the object.

## Main definitions

* `Json.IsObject`, `Json.IsText`, `Json.IsTexts`, `Json.IsNumber`, `Json.IsName` — the sort of a
  value, with a condition on what it holds.
* `Json.Requires`, `Json.Allows`, `Json.AllowsNull` — the field of a name.
* `Json.Accepts` — a reader takes exactly the values of a shape.

## Main statements

* `Json.Accepts.required`, `Json.Accepts.ifPresent`, `Json.Accepts.optional` — from the value of a
  field to the field.
-/

namespace CatalogEdit

theorem Named.ofName?_eq_some {α : Type} [Named α] [LawfulNamed α] {t : Text} {a : α} :
    Named.ofName? t = some a ↔ t = Named.name a := by
  constructor
  · intro h
    have hname : (Named.name a == t) = true := List.find?_some (p := fun a => Named.name a == t) h
    exact (beq_iff_eq.mp hname).symm
  · rintro rfl
    exact LawfulNamed.ofName?_name a

namespace Json

/-! ## Shapes -/

/-- An object whose fields are as `P` says. -/
def IsObject (P : List (Text × Json) → Prop) (j : Json) : Prop :=
  ∃ fields, j = .object fields ∧ P fields

def IsText (P : Text → Prop) (j : Json) : Prop := ∃ t, j = .string t ∧ P t

/-- An array of nothing but strings. -/
def IsTexts (P : List Text → Prop) (j : Json) : Prop := ∃ ts, j = .array (ts.map .string) ∧ P ts

/-- A number of either sort, as a floating-point number. -/
def IsNumber (P : Binary64 → Prop) (j : Json) : Prop := ∃ x, j.toBinary64? = some x ∧ P x

/-- The name of a member of a vocabulary. -/
def IsName (α : Type) [Named α] (j : Json) : Prop := ∃ a : α, j = .string (Named.name a)

section Fields

variable (fields : List (Text × Json)) (name : String) (P : Json → Prop)

/-- The field is there. -/
def Requires : Prop := ∃ v, fields.lookup (utf8 name) = some v ∧ P v

/-- The field may be absent. -/
def Allows : Prop := ∀ v, fields.lookup (utf8 name) = some v → P v

/-- The field may be absent or null. -/
def AllowsNull : Prop := Allows fields name fun v => v = .null ∨ P v

end Fields

/-! ## Readers of values -/

section Accepts

variable {α : Type}

/-- The reader succeeds, with something that is `sound`, exactly on the values of a shape. -/
def Accepts (read : Cursor → Except Mismatch α) (sound : α → Prop) (P : Json → Prop) : Prop :=
  ∀ c : Cursor, (∃ a, read c = .ok a ∧ sound a) ↔ P c.value

theorem accepts_text {P : Text → Prop} : Accepts Cursor.text P (IsText P) := by
  rintro ⟨path, j⟩
  cases j with
  | string t => simp [Cursor.text, IsText]
  | null | bool | integer | number | array | object =>
    simp [Cursor.text, Cursor.mismatch, IsText]

theorem accepts_number {P : Binary64 → Prop} : Accepts Cursor.number P (IsNumber P) := by
  rintro ⟨path, j⟩
  cases hx : j.toBinary64? with
  | none => simp [Cursor.number, Cursor.mismatch, IsNumber, hx]
  | some x => simp [Cursor.number, IsNumber, hx]

/-- The name of one member in particular. -/
theorem accepts_name [Named α] [LawfulNamed α] {a : α} :
    Accepts (Cursor.named (α := α)) (· = a) (· = .string (Named.name a)) := by
  intro c
  simp only [Cursor.named, Except.bind_eq_ok, exists_eq_right]
  constructor
  · rintro ⟨t, ht, ha⟩
    obtain ⟨t', hvalue, rfl⟩ := (accepts_text (P := (· = t)) c).mp ⟨t, ht, rfl⟩
    split at ha
    next b hb =>
      obtain rfl := Except.ok.inj ha
      exact hvalue.trans (congrArg _ (Named.ofName?_eq_some.mp hb))
    next => contradiction
  · intro ha
    refine ⟨Named.name a, by rw [Cursor.text, ha], ?_⟩
    rw [LawfulNamed.ofName?_name]

theorem accepts_named [Named α] [LawfulNamed α] :
    Accepts (Cursor.named (α := α)) (fun _ => True) (IsName α) := by
  intro c
  simp only [and_true, IsName, ← accepts_name c, exists_eq_right]

theorem mapM_toText?_eq_some {items : List Json} {ts : List Text} :
    items.mapM toText? = some ts ↔ items = ts.map .string := by
  induction items generalizing ts with
  | nil => simp [eq_comm]
  | cons j items ih =>
    cases j with
    | string t =>
      cases ts with
      | nil => simp [toText?, Option.bind_eq_some_iff]
      | cons u us => simpa [toText?, Option.bind_eq_some_iff, ih] using and_comm
    | null | bool | integer | number | array | object => cases ts <;> simp [toText?]

theorem accepts_texts {P : List Text → Prop} : Accepts Cursor.texts P (IsTexts P) := by
  rintro ⟨path, j⟩
  cases j with
  | array items =>
    simp only [Cursor.texts, IsTexts, array.injEq, ← mapM_toText?_eq_some]
    cases items.mapM toText? with
    | none => simp [Cursor.mismatch]
    | some ts => simp
  | null | bool | integer | number | string | object =>
    simp [Cursor.texts, Cursor.mismatch, IsTexts]

variable {read : Cursor → Except Mismatch α} {sound : α → Prop} {P : Json → Prop}

theorem accepts_object {readFields : Fields → Except Mismatch α}
    {Q : List (Text × Json) → Prop}
    (h : ∀ f : Fields, (∃ a, readFields f = .ok a ∧ sound a) ↔ Q f.entries) :
    Accepts (fun c => c.object >>= readFields) sound (IsObject Q) := by
  rintro ⟨path, j⟩
  cases j with
  | object fields => simp [Cursor.object, IsObject, h]
  | null | bool | integer | number | string | array =>
    simp [Cursor.object, Cursor.mismatch, IsObject, Except.bind_eq_ok]

/-! ## Readers of fields -/

variable {f : Fields} {name : String}

theorem Accepts.required (h : Accepts read sound P) :
    (∃ a, f.required name read = .ok a ∧ sound a) ↔ Requires f.entries name P := by
  cases hv : f.entries.lookup (utf8 name) with
  | none => simp [Fields.required, Fields.get?, Requires, hv]
  | some v => simp [Fields.required, Fields.get?, Requires, hv, h _]

theorem Accepts.ifPresent (h : Accepts read sound P) (absent : α) (habsent : sound absent) :
    (∃ a, f.ifPresent name absent read = .ok a ∧ sound a) ↔ Allows f.entries name P := by
  cases hv : f.entries.lookup (utf8 name) with
  | none => simp [Fields.ifPresent, Fields.get?, Allows, hv, habsent]
  | some v => simp [Fields.ifPresent, Fields.get?, Allows, hv, h _]

theorem Accepts.ifPresent_some (h : Accepts read sound P) :
    (∃ o, (f.ifPresent name none fun c => some <$> read c) = .ok o ∧ ∀ a ∈ o, sound a) ↔
      Allows f.entries name P := by
  refine ifPresent (fun c => ?_) none nofun
  rw [← h c]
  constructor
  · rintro ⟨o, ho, hsound⟩
    obtain ⟨a, ha, rfl⟩ := Except.map_eq_ok.mp ho
    exact ⟨a, ha, hsound a rfl⟩
  · rintro ⟨a, ha, hsound⟩
    exact ⟨some a, Except.map_eq_ok.mpr ⟨a, ha, rfl⟩, fun b hb => Option.some.inj hb ▸ hsound⟩

/-- A field that is not null is read as one that may be absent. -/
theorem Fields.optional_eq_ifPresent (hnull : f.entries.lookup (utf8 name) ≠ some .null) :
    f.optional name read = f.ifPresent name none fun c => some <$> read c := by
  unfold optional ifPresent
  cases hc : f.get? name with
  | none => rfl
  | some c =>
    obtain ⟨v, hv, rfl⟩ := Option.map_eq_some_iff.mp hc
    have hne : v ≠ .null := fun heq => hnull (heq ▸ hv)
    cases v with
    | null => exact absurd rfl hne
    | bool | integer | number | string | array | object => rfl

theorem Accepts.optional (h : Accepts read sound P) :
    (∃ o, f.optional name read = .ok o ∧ ∀ a ∈ o, sound a) ↔ AllowsNull f.entries name P := by
  by_cases hnull : f.entries.lookup (utf8 name) = some .null
  · simp [Fields.optional, Fields.get?, AllowsNull, Allows, hnull]
  · rw [Fields.optional_eq_ifPresent hnull, h.ifPresent_some]
    refine forall₂_congr fun v hv => ?_
    have hne : v ≠ .null := fun heq => hnull (heq ▸ hv)
    simp [hne]

end Accepts

end Json

end CatalogEdit
