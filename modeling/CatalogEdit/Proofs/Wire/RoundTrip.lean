import CatalogEdit.Proofs.Number.Value
import CatalogEdit.Proofs.Rule.Sound
import CatalogEdit.Proofs.Wire.Fields

/-!
# Edits and selections survive the wire

What was written is read back as it was: every selection, and every edit whose quantity, if it has
one, is small enough to be a floating-point number. Reading an edit never yields any other
quantity, so what was read can always be written and read again.

## Main definitions

* `Change.FitsWire` — a quantity is at most `2 ^ 53 - 1` in absolute value.

## Main statements

* `Edit.read_encode`, `Selection.inverts_read` — reading inverts writing.
* `Edit.decode_encode`, `Selection.decode_encode` — the same for decoding, which also checks the
  rules.
* `Edit.fitsWire_of_read` — quantities that are read fit.
-/

namespace CatalogEdit

open Json

/-! ## The parts of a change -/

theorem Rounding.inverts_read : Inverts Rounding.read Rounding.encode := by
  intro path r
  simp [Rounding.read, Rounding.encode, Cursor.object, List.lookup_append,
    inverts_number.required (a := r.precision), inverts_text.optional (o := r.endWith),
    inverts_named.ifPresent (a := r.mode)]

theorem PriceChange.read_encode (path : Path) (c : PriceChange) :
    (Cursor.object ⟨path, c.encode⟩ >>= PriceChange.read) = .ok c := by
  simp [PriceChange.read, PriceChange.encode, Cursor.object, List.lookup_append,
    inverts_named.required (a := c.mode), inverts_number.required (a := c.value),
    inverts_text.optional (o := c.currency),
    Rounding.inverts_read.ifPresent_some (o := c.rounding)]

theorem TagChange.read_encode (path : Path) (c : TagChange) :
    (Cursor.object ⟨path, c.encode⟩ >>= TagChange.read) = .ok c := by
  simp [TagChange.read, TagChange.encode, Cursor.object,
    inverts_named.required (a := c.mode), inverts_texts.required (a := c.values)]

theorem InventoryChange.readValue_eq {c : Cursor} {x : Binary64} {n : Int}
    (hnumber : c.number = .ok x) (hwhole : x.toInt? = some n) (h : n.natAbs ≤ maxSize) :
    readValue c = .ok n := by
  simp [readValue, hnumber, hwhole, Option.filter, h]

/-- A quantity is written as an integer and read as a floating-point number. -/
theorem InventoryChange.readValue_integer (path : Path) {n : Int} (h : n.natAbs ≤ maxSize) :
    readValue ⟨path, .integer n⟩ = .ok n :=
  readValue_eq rfl (Binary64.toInt?_ofInt (Nat.lt_of_le_of_lt h (by decide))) h

theorem InventoryChange.read_encode (path : Path) {c : InventoryChange}
    (h : c.value.natAbs ≤ maxSize) :
    (Cursor.object ⟨path, c.encode⟩ >>= InventoryChange.read) = .ok c := by
  have hvalue : ∀ f : Fields, f.entries.lookup (utf8 "value") = some (.integer c.value) →
      f.required "value" readValue = .ok c.value := by
    intro f hf
    simp [Fields.required, Fields.get?, hf, readValue_integer _ h]
  simp [InventoryChange.read, InventoryChange.encode, Cursor.object, List.lookup_append,
    inverts_named.required (a := c.mode), hvalue, inverts_text.optional (o := c.location)]

theorem MetafieldValue.inverts_read : Inverts MetafieldValue.read MetafieldValue.encode := by
  intro path v
  cases v <;> rfl

theorem Metafield.inverts_read : Inverts Metafield.read Metafield.encode := by
  intro path m
  simp [Metafield.read, Metafield.encode, Cursor.object,
    inverts_text.required (a := m.ns), inverts_text.required (a := m.key),
    inverts_text.required (a := m.type),
    MetafieldValue.inverts_read.ifPresent_some (o := m.value)]

theorem Seo.inverts_read : Inverts Seo.read Seo.encode := by
  intro path s
  simp [Seo.read, Seo.encode, Cursor.object, List.lookup_append,
    inverts_text.optional (o := s.title), inverts_text.optional (o := s.description)]

/-! ## Edits -/

/-- A change that the wire can carry: a quantity is at most `2 ^ 53 - 1` in absolute value. -/
def Change.FitsWire : Change → Prop
  | .inventory c => c.value.natAbs ≤ InventoryChange.maxSize
  | _ => True

theorem Change.read_encode (path : Path) {c : Change} (h : c.FitsWire) :
    Change.read c.operation ⟨path, c.encode⟩ = .ok c := by
  cases c with
  | price c => simp only [Change.read, encode, operation, ← map_bind, PriceChange.read_encode]; rfl
  | compareAt c =>
    simp only [Change.read, encode, operation, ← map_bind, PriceChange.read_encode]; rfl
  | tags c => simp only [Change.read, encode, operation, ← map_bind, TagChange.read_encode]; rfl
  | inventory c =>
    simp only [Change.read, encode, operation, ← map_bind, InventoryChange.read_encode path h]; rfl
  | status s =>
    simp [Change.read, encode, operation, Cursor.object, inverts_named.required (a := s)]
  | metafield m =>
    simp [Change.read, encode, operation, Cursor.object, Metafield.inverts_read.required (a := m)]
  | seo s =>
    simp [Change.read, encode, operation, Cursor.object, Seo.inverts_read.required (a := s)]

/-- Reading an edit that was written gives the edit, sound or not. -/
theorem Edit.read_encode (path : Path) {e : Edit} (h : e.change.FitsWire) :
    Edit.read ⟨path, e.encode⟩ = .ok e := by
  have hparams : ∀ f : Fields, f.entries.lookup (utf8 "params") = some e.change.encode →
      f.required "params" (Change.read e.operation) = .ok e.change := by
    intro f hf
    simp [Fields.required, Fields.get?, hf, operation, Change.read_encode _ h]
  simp [Edit.read, Edit.encode, Cursor.object, List.lookup_append,
    inverts_named.required (a := e.operation), inverts_named.ifPresent (a := e.scope),
    inverts_text.optional (o := e.schedule), hparams]

theorem InventoryChange.natAbs_le_of_read {f : Fields} {c : InventoryChange}
    (h : InventoryChange.read f = .ok c) : c.value.natAbs ≤ maxSize := by
  simp only [InventoryChange.read, Except.bind_eq_ok] at h
  obtain ⟨mode, -, value, hvalue, location, -, hc⟩ := h
  obtain ⟨c', -, hread⟩ := Fields.required_eq_ok.mp hvalue
  simp only [readValue, Except.bind_eq_ok] at hread
  obtain ⟨x, -, hwhole⟩ := hread
  split at hwhole
  next n hn =>
    obtain rfl := Except.ok.inj hwhole
    obtain rfl := Except.ok.inj hc
    simpa using (Option.filter_eq_some_iff.mp hn).2
  next => contradiction

/-- No other quantity than one that can be written again is ever read. -/
theorem Change.fitsWire_of_read {operation : Operation} {c : Cursor} {change : Change}
    (h : Change.read operation c = .ok change) : change.FitsWire := by
  simp only [Change.read, Except.bind_eq_ok] at h
  obtain ⟨f, -, h⟩ := h
  cases operation with
  | inventory =>
    obtain ⟨c, hc, rfl⟩ := Except.map_eq_ok.mp h
    exact InventoryChange.natAbs_le_of_read hc
  | price | compareAt | tags | status | metafield | seo =>
    obtain ⟨-, -, rfl⟩ := Except.map_eq_ok.mp h
    trivial

theorem Edit.fitsWire_of_read {c : Cursor} {e : Edit} (h : Edit.read c = .ok e) :
    e.change.FitsWire := by
  simp only [Edit.read, Except.bind_eq_ok] at h
  obtain ⟨f, -, operation, -, scope, -, schedule, -, change, hchange, he⟩ := h
  obtain ⟨c', -, hread⟩ := Fields.required_eq_ok.mp hchange
  obtain rfl := Except.ok.inj he
  exact Change.fitsWire_of_read hread

theorem Edit.decode_eq_check {e : Edit} (h : e.change.FitsWire) :
    Edit.decode e.encode = e.check.mapError .violation := by
  simp [Edit.decode, Edit.read_encode _ h]

theorem Edit.decode_encode {e : Edit} (hfits : e.change.FitsWire) (hsound : e.violations = []) :
    Edit.decode e.encode = .ok e := by
  rw [decode_eq_check hfits, check_eq_ok.mpr ⟨hsound, rfl⟩]
  rfl

/-- What is decoded is sound, and can be written. -/
theorem Edit.sound_of_decode {j : Json} {e : Edit} (h : Edit.decode j = .ok e) :
    e.violations = [] ∧ e.change.FitsWire := by
  simp only [Edit.decode, Except.bind_eq_ok] at h
  obtain ⟨e', hread, hcheck⟩ := h
  obtain ⟨hsound, rfl⟩ := check_eq_ok.mp (Except.mapError_eq_ok.mp hcheck)
  exact ⟨hsound, fitsWire_of_read (Except.mapError_eq_ok.mp hread)⟩

/-! ## Selections -/

theorem Requirements.inverts_read : Inverts Requirements.read Requirements.encode := by
  intro path r
  simp [Requirements.read, Requirements.encode, Cursor.object,
    inverts_texts.ifPresent (a := r.vendors), inverts_texts.ifPresent (a := r.types),
    inverts_texts.ifPresent (a := r.collections), inverts_texts.ifPresent (a := r.tags)]

theorem Exclusions.inverts_read :
    Inverts Exclusions.read fun x => .object [(utf8 "tags", encodeTexts x.tags)] := by
  intro path x
  simp [Exclusions.read, Cursor.object, inverts_texts.ifPresent (a := x.tags)]

theorem Bounds.inverts_read : Inverts Bounds.read Bounds.encode := by
  intro path b
  simp [Bounds.read, Bounds.encode, Cursor.object, List.lookup_append,
    inverts_number.optional (o := b.priceAtLeast), inverts_number.optional (o := b.priceAtMost),
    inverts_number.optional (o := b.inventoryEquals)]

theorem Selection.inverts_read : Inverts Selection.read Selection.encode := by
  intro path s
  simp [Selection.read, Selection.encode, Cursor.object,
    Requirements.inverts_read.ifPresent (a := s.must),
    Exclusions.inverts_read.ifPresent (a := s.mustNot),
    inverts_text.nullable (o := s.titleContains), Bounds.inverts_read.ifPresent (a := s.numeric)]

theorem Selection.decode_eq_check (s : Selection) :
    Selection.decode s.encode = s.check.mapError .violation := by
  simp [Selection.decode, Selection.inverts_read _ s]

theorem Selection.decode_encode {s : Selection} (h : s.violations = []) :
    Selection.decode s.encode = .ok s := by
  rw [decode_eq_check, check_eq_ok.mpr ⟨h, rfl⟩]
  rfl

end CatalogEdit
