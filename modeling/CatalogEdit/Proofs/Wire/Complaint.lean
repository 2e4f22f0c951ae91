import CatalogEdit.Proofs.Rule.Report
import CatalogEdit.Proofs.Wire.Fields

/-!
# Where complaints point

A reader complains about the value it is given or about something inside it, so every complaint
about an edit begins with the place of the edit. The same holds of the rules that an edit breaks,
after a heading of their own.

## Main definitions

* `Json.PointsInto` — a reading that complains at most about what lies within a place.

## Main statements

* `Edit.pointsInto_read` — what the reader of edits complains about.
* `Edit.root_prefix_of_check` — which place a broken rule of an edit is reported at.
* `Json.Mismatch.prefix_message`, `Violation.prefix_message` — how a report about a place begins.
-/

namespace CatalogEdit

namespace Json

/-! ## Sequences of readings -/

section PointsInto

variable {α β : Type} {path path' : Path} {x : Except Mismatch α}

/-- Whatever the reading complains about lies within `path`. -/
def PointsInto (path : Path) (x : Except Mismatch α) : Prop :=
  ∀ m, x = .error m → path <+: m.path

theorem pointsInto_ok {a : α} : PointsInto path (.ok a) := nofun

theorem pointsInto_error {m : Mismatch} (h : path <+: m.path) :
    PointsInto (α := α) path (.error m) :=
  fun _ heq => Except.error.inj heq ▸ h

theorem PointsInto.mono (hx : PointsInto path' x) (h : path <+: path') : PointsInto path x :=
  fun m hm => h.trans (hx m hm)

theorem PointsInto.bind {f : α → Except Mismatch β} (hx : PointsInto path x)
    (hf : ∀ a, PointsInto path (f a)) : PointsInto path (x >>= f) := by
  cases x with
  | error m => exact pointsInto_error (hx m rfl)
  | ok a => exact hf a

theorem PointsInto.map {f : α → β} (hx : PointsInto path x) : PointsInto path (f <$> x) := by
  cases x with
  | error m => exact pointsInto_error (hx m rfl)
  | ok a => exact pointsInto_ok

end PointsInto

/-! ## Values and fields -/

namespace Cursor

variable {α : Type}

theorem pointsInto_mismatch (c : Cursor) (e : Expectation) :
    PointsInto (α := α) c.path (c.mismatch e) :=
  pointsInto_error (List.prefix_refl _)

theorem pointsInto_object_bind (c : Cursor) {read : Fields → Except Mismatch α}
    (h : ∀ f, PointsInto f.path (read f)) : PointsInto c.path (c.object >>= read) := by
  obtain ⟨path, j⟩ := c
  cases j with
  | object fields => exact h ⟨path, fields⟩
  | null | bool | integer | number | string | array => exact pointsInto_mismatch _ _

theorem pointsInto_text (c : Cursor) : PointsInto c.path c.text := by
  unfold text
  split
  · exact pointsInto_ok
  · exact c.pointsInto_mismatch _

theorem pointsInto_number (c : Cursor) : PointsInto c.path c.number := by
  unfold number
  split
  · exact pointsInto_ok
  · exact c.pointsInto_mismatch _

theorem pointsInto_named [Named α] (c : Cursor) : PointsInto c.path (c.named (α := α)) := by
  refine c.pointsInto_text.bind fun t => ?_
  split
  · exact pointsInto_ok
  · exact c.pointsInto_mismatch _

theorem pointsInto_texts (c : Cursor) : PointsInto c.path c.texts := by
  unfold texts
  split
  · split
    · exact pointsInto_ok
    · exact c.pointsInto_mismatch _
  · exact c.pointsInto_mismatch _

end Cursor

namespace Fields

variable {α : Type} {read : Cursor → Except Mismatch α} (f : Fields) {name : String}

theorem path_of_get? {c : Cursor} (h : f.get? name = some c) : c.path = f.path.field name := by
  obtain ⟨v, -, rfl⟩ := Option.map_eq_some_iff.mp h
  rfl

/-- What lies within a field lies within the object. -/
theorem pointsInto_of_get? (hread : ∀ c, PointsInto c.path (read c)) {c : Cursor}
    (h : f.get? name = some c) : PointsInto f.path (read c) :=
  (hread c).mono (f.path_of_get? h ▸ Path.prefix_field _ _)

theorem pointsInto_required (hread : ∀ c, PointsInto c.path (read c)) :
    PointsInto f.path (f.required name read) := by
  unfold required
  split
  next c hc => exact f.pointsInto_of_get? hread hc
  next => exact pointsInto_error (Path.prefix_field _ _)

theorem pointsInto_ifPresent {absent : α} (hread : ∀ c, PointsInto c.path (read c)) :
    PointsInto f.path (f.ifPresent name absent read) := by
  unfold ifPresent
  split
  next c hc => exact f.pointsInto_of_get? hread hc
  next => exact pointsInto_ok

theorem pointsInto_optional (hread : ∀ c, PointsInto c.path (read c)) :
    PointsInto f.path (f.optional name read) := by
  unfold optional
  split
  next => exact pointsInto_ok
  next => exact pointsInto_ok
  next c _ hc => exact (f.pointsInto_of_get? hread hc).map

end Fields

end Json

open Json

/-! ## Edits -/

theorem Rounding.pointsInto_read (c : Cursor) : PointsInto c.path (Rounding.read c) :=
  c.pointsInto_object_bind fun f =>
    (f.pointsInto_required Cursor.pointsInto_number).bind fun _ =>
    (f.pointsInto_optional Cursor.pointsInto_text).bind fun _ =>
    (f.pointsInto_ifPresent Cursor.pointsInto_named).bind fun _ => pointsInto_ok

theorem PriceChange.pointsInto_read (f : Fields) : PointsInto f.path (PriceChange.read f) :=
  (f.pointsInto_required Cursor.pointsInto_named).bind fun _ =>
  (f.pointsInto_required Cursor.pointsInto_number).bind fun _ =>
  (f.pointsInto_optional Cursor.pointsInto_text).bind fun _ =>
  (f.pointsInto_ifPresent fun c => (Rounding.pointsInto_read c).map).bind fun _ => pointsInto_ok

theorem TagChange.pointsInto_read (f : Fields) : PointsInto f.path (TagChange.read f) :=
  (f.pointsInto_required Cursor.pointsInto_named).bind fun _ =>
  (f.pointsInto_required Cursor.pointsInto_texts).bind fun _ => pointsInto_ok

theorem InventoryChange.pointsInto_readValue (c : Cursor) :
    PointsInto c.path (InventoryChange.readValue c) := by
  refine c.pointsInto_number.bind fun x => ?_
  split
  · exact pointsInto_ok
  · exact c.pointsInto_mismatch _

theorem InventoryChange.pointsInto_read (f : Fields) :
    PointsInto f.path (InventoryChange.read f) :=
  (f.pointsInto_required Cursor.pointsInto_named).bind fun _ =>
  (f.pointsInto_required pointsInto_readValue).bind fun _ =>
  (f.pointsInto_optional Cursor.pointsInto_text).bind fun _ => pointsInto_ok

theorem MetafieldValue.pointsInto_read (c : Cursor) :
    PointsInto c.path (MetafieldValue.read c) := by
  obtain ⟨path, j⟩ := c
  cases j with
  | null | bool | integer | number | string => exact pointsInto_ok
  | array | object => exact Cursor.pointsInto_mismatch _ _

theorem Metafield.pointsInto_read (c : Cursor) : PointsInto c.path (Metafield.read c) :=
  c.pointsInto_object_bind fun f =>
    (f.pointsInto_required Cursor.pointsInto_text).bind fun _ =>
    (f.pointsInto_required Cursor.pointsInto_text).bind fun _ =>
    (f.pointsInto_required Cursor.pointsInto_text).bind fun _ =>
    (f.pointsInto_ifPresent fun c => (MetafieldValue.pointsInto_read c).map).bind fun _ =>
    pointsInto_ok

theorem Seo.pointsInto_read (c : Cursor) : PointsInto c.path (Seo.read c) :=
  c.pointsInto_object_bind fun f =>
    (f.pointsInto_optional Cursor.pointsInto_text).bind fun _ =>
    (f.pointsInto_optional Cursor.pointsInto_text).bind fun _ => pointsInto_ok

theorem Change.pointsInto_read (operation : Operation) (c : Cursor) :
    PointsInto c.path (Change.read operation c) := by
  refine c.pointsInto_object_bind fun f => ?_
  cases operation with
  | price | compareAt => exact (PriceChange.pointsInto_read f).map
  | tags => exact (TagChange.pointsInto_read f).map
  | inventory => exact (InventoryChange.pointsInto_read f).map
  | status => exact (f.pointsInto_required Cursor.pointsInto_named).map
  | metafield => exact (f.pointsInto_required Metafield.pointsInto_read).map
  | seo => exact (f.pointsInto_required Seo.pointsInto_read).map

theorem Edit.pointsInto_read (c : Cursor) : PointsInto c.path (Edit.read c) :=
  c.pointsInto_object_bind fun f =>
    (f.pointsInto_required Cursor.pointsInto_named).bind fun operation =>
    (f.pointsInto_ifPresent Cursor.pointsInto_named).bind fun _ =>
    (f.pointsInto_optional Cursor.pointsInto_text).bind fun _ =>
    (f.pointsInto_required (Change.pointsInto_read operation)).bind fun _ => pointsInto_ok

/-- A rule that an edit breaks is broken within the edit. -/
theorem Edit.root_prefix_of_check {e : Edit} {v : Violation} (h : e.check = .error v) :
    root <+: v.path :=
  prefix_of_mem_places
    (e.isReport_violations.path_mem v (List.mem_of_mem_head? (Violation.first_eq_error.mp h)))

/-! ## Messages -/

theorem Path.prefix_render {name : String} {p : Path} (h : Path.ofField name <+: p) :
    utf8 name <+: p.render := by
  obtain ⟨steps, rfl⟩ := h
  exact List.prefix_append _ _

/-- A message of a reader begins with the place that it is about. -/
theorem Json.Mismatch.prefix_message {name : String} {m : Mismatch}
    (hname : Byte.nul ∉ utf8 name) (h : Path.ofField name <+: m.path) :
    utf8 name <+: m.message := by
  have hrender : utf8 name <+: m.path.render ++ utf8 ": " ++ m.expectation.text := by
    rw [List.append_assoc]
    exact (Path.prefix_render h).trans (List.prefix_append _ _)
  obtain ⟨rest, hrest⟩ := hrender
  rw [message, ← hrest, Text.untilNul, List.takeWhile_append_of_pos]
  · exact List.prefix_append _ _
  · exact fun b hb => bne_iff_ne.mpr (ne_of_mem_of_not_mem hb hname)

/-- A message about a broken rule names the place after its heading. -/
theorem Violation.prefix_message {name : String} {v : Violation}
    (h : Path.ofField name <+: v.path) :
    utf8 "schema violation: " ++ utf8 name <+: v.message := by
  simp only [message, List.append_assoc, List.prefix_append_right_inj]
  exact (Path.prefix_render h).trans (List.prefix_append _ _)

end CatalogEdit
