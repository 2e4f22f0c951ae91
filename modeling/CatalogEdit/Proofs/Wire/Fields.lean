import CatalogEdit.Wire.Decode
import CatalogEdit.Wire.Encode

/-!
# Reading back written fields

A reader inverts a writer if it gives back every value that was written, wherever it stands. The
readers of texts, numbers, names and lists do, and the three ways to read a field of an object
carry the property on from the value of the field to the field.

## Main definitions

* `Json.Inverts` — the reader gives back what the writer has written.
* `LawfulNamed` — no two members of a vocabulary have the same name.

## Main statements

* `Json.Inverts.required`, `Json.Inverts.optional`, `Json.Inverts.ifPresent` — fields are read
  back.
* `Except.bind_eq_ok` — a sequence of readings succeeds step by step.
-/

namespace CatalogEdit

/-! ## Sequences of readings -/

instance Except.decidableEq {ε α : Type} [DecidableEq ε] [DecidableEq α] :
    DecidableEq (Except ε α)
  | .ok a, .ok b => decidable_of_iff (a = b) ⟨congrArg Except.ok, Except.ok.inj⟩
  | .error a, .error b => decidable_of_iff (a = b) ⟨congrArg Except.error, Except.error.inj⟩
  | .ok _, .error _ => isFalse nofun
  | .error _, .ok _ => isFalse nofun

theorem Except.bind_eq_ok {ε α β : Type} {x : Except ε α} {f : α → Except ε β} {b : β} :
    (x >>= f) = .ok b ↔ ∃ a, x = .ok a ∧ f a = .ok b := by
  cases x with
  | error e => simp [bind, Except.bind]
  | ok a => simp [bind, Except.bind]

@[simp] theorem Except.ok_bind {ε α β : Type} (a : α) (f : α → Except ε β) :
    ((Except.ok a : Except ε α) >>= f) = f a := rfl

@[simp] theorem Except.map_ok {ε α β : Type} (f : α → β) (a : α) :
    f <$> (Except.ok a : Except ε α) = .ok (f a) := rfl

theorem Except.map_eq_ok {ε α β : Type} {x : Except ε α} {f : α → β} {b : β} :
    (f <$> x) = .ok b ↔ ∃ a, x = .ok a ∧ f a = b := by
  cases x with
  | error e => simp [Functor.map, Except.map]
  | ok a => simp [Functor.map, Except.map]

@[simp] theorem Except.mapError_ok {ε ε' α : Type} (f : ε → ε') (a : α) :
    (Except.ok a : Except ε α).mapError f = .ok a := rfl

@[simp] theorem Except.mapError_error {ε ε' α : Type} (f : ε → ε') (e : ε) :
    (Except.error e : Except ε α).mapError f = .error (f e) := rfl

theorem Except.mapError_eq_ok {ε ε' α : Type} {f : ε → ε'} {x : Except ε α} {a : α} :
    x.mapError f = .ok a ↔ x = .ok a := by
  cases x with
  | error e => simp
  | ok b => simp

theorem Except.toOption_eq_some {ε α : Type} {x : Except ε α} {a : α} :
    x.toOption = some a ↔ x = .ok a := by
  cases x with
  | error e => simp [Except.toOption]
  | ok b => simp [Except.toOption]

/-! ## Names -/

/-- A vocabulary in which every member is found by its own name. -/
class LawfulNamed (α : Type) [Named α] : Prop where
  ofName?_name : ∀ a : α, Named.ofName? (Named.name a) = some a

instance : LawfulNamed Scope := ⟨by intro a; cases a <;> decide⟩
instance : LawfulNamed Operation := ⟨by intro a; cases a <;> decide⟩
instance : LawfulNamed PriceMode := ⟨by intro a; cases a <;> decide⟩
instance : LawfulNamed RoundingMode := ⟨by intro a; cases a <;> decide⟩
instance : LawfulNamed TagMode := ⟨by intro a; cases a <;> decide⟩
instance : LawfulNamed InventoryMode := ⟨by intro a; cases a <;> decide⟩
instance : LawfulNamed Status := ⟨by intro a; cases a <;> decide⟩
instance : LawfulNamed Confidence := ⟨by intro a; cases a <;> decide⟩
instance : LawfulNamed IssueCode := ⟨by intro a; cases a <;> decide⟩

namespace Json

/-! ## Looking up written fields -/

@[simp] theorem lookup_cons_utf8 (name key : String) (v : Json) (fields : List (Text × Json)) :
    List.lookup (utf8 name) ((utf8 key, v) :: fields) =
      if name = key then some v else List.lookup (utf8 name) fields := by
  by_cases h : name = key
  · simp [h]
  · have hne : (utf8 name == utf8 key) = false := by simpa [utf8_inj] using h
    simp [List.lookup_cons, hne, h]

@[simp] theorem lookup_fieldOfOption {α : Type} (name key : String) (encode : α → Json)
    (o : Option α) :
    List.lookup (utf8 name) (fieldOfOption key encode o) =
      if name = key then o.map encode else none := by
  cases o with
  | none => simp [fieldOfOption]
  | some a => simp [fieldOfOption]

/-! ## Fields that were read -/

theorem Fields.required_eq_ok {α : Type} {f : Fields} {name : String}
    {read : Cursor → Except Mismatch α} {a : α} :
    f.required name read = .ok a ↔ ∃ c, f.get? name = some c ∧ read c = .ok a := by
  cases h : f.get? name with
  | none => simp [required, h]
  | some c => simp [required, h]

/-! ## Readers and writers -/

section Inverts

variable {α : Type} {read : Cursor → Except Mismatch α} {encode : α → Json}

/-- The reader gives back what the writer has written, wherever it stands. -/
def Inverts (read : Cursor → Except Mismatch α) (encode : α → Json) : Prop :=
  ∀ path a, read ⟨path, encode a⟩ = .ok a

theorem inverts_text : Inverts Cursor.text .string := fun _ _ => rfl

theorem inverts_number : Inverts Cursor.number .number := fun _ _ => rfl

theorem inverts_named [Named α] [LawfulNamed α] : Inverts (Cursor.named (α := α)) encodeName := by
  intro path a
  simp [Cursor.named, Cursor.text, encodeName, LawfulNamed.ofName?_name]

theorem inverts_texts : Inverts Cursor.texts encodeTexts := by
  intro path ts
  have hitems : (ts.map Json.string).mapM toText? = some ts := by
    induction ts with
    | nil => rfl
    | cons t ts ih => simp [toText?, ih]
  simp [Cursor.texts, encodeTexts, hitems]

variable {f : Fields} {name : String} {a : α}

theorem Inverts.required (h : Inverts read encode)
    (hfield : f.entries.lookup (utf8 name) = some (encode a)) : f.required name read = .ok a := by
  simp [Fields.required, Fields.get?, hfield, h _ a]

theorem Inverts.ifPresent (h : Inverts read encode) {absent : α}
    (hfield : f.entries.lookup (utf8 name) = some (encode a)) :
    f.ifPresent name absent read = .ok a := by
  simp [Fields.ifPresent, Fields.get?, hfield, h _ a]

/-- A field that is written only if there is a value. -/
theorem Inverts.ifPresent_some (h : Inverts read encode) {o : Option α}
    (hfield : f.entries.lookup (utf8 name) = o.map encode) :
    (f.ifPresent name none fun c => some <$> read c) = .ok o := by
  cases o with
  | none => simp [Fields.ifPresent, Fields.get?, hfield]
  | some a => simp [Fields.ifPresent, Fields.get?, hfield, h _ a]

/-- The same for a field that may also be null, if no value is written as null. -/
theorem Inverts.optional (h : Inverts read encode) (hnull : ∀ a, encode a ≠ .null) {o : Option α}
    (hfield : f.entries.lookup (utf8 name) = o.map encode) :
    f.optional name read = .ok o := by
  cases o with
  | none => simp [Fields.optional, Fields.get?, hfield]
  | some a =>
    simp only [Fields.optional, Fields.get?, hfield, Option.map_some]
    split
    next heq => simp at heq
    next heq => exact absurd (congrArg Cursor.value (Option.some.inj heq)) (hnull a)
    next heq =>
      obtain rfl := Option.some.inj heq
      simp [h _ a, Except.map]

/-- The same for a field that is null if there is no value. -/
theorem Inverts.nullable (h : Inverts read encode) (hnull : ∀ a, encode a ≠ .null) {o : Option α}
    (hfield : f.entries.lookup (utf8 name) = some (o.elim .null encode)) :
    f.optional name read = .ok o := by
  cases o with
  | none => simp [Fields.optional, Fields.get?, hfield]
  | some a => exact h.optional hnull (o := some a) hfield

end Inverts

end Json

end CatalogEdit
