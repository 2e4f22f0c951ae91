import CatalogEdit.Proofs.Wire.RoundTrip

/-!
# What is read back from the wire

A written edit is read back exactly if it breaks no rule and its quantity, if it has one, is not too
large to be a floating-point number without loss. So the rules and the reader draw the same line but
for one thing: no rule bounds a quantity from above. A written selection is read back exactly if its
bounds are finite, and a selection without conditions is the only one that is written like it.

## Main definitions

* `Bounds.IsFinite` — every bound there is is a finite number.

## Main statements

* `Edit.fitsWire_of_read_encode` — only quantities that fit are read back at all.
* `Edit.decode_encode_iff_check` — which edits are read back.
* `Edit.check_without_decode` — an edit that breaks no rule and is not read back.
* `Selection.decode_encode_iff_isFinite` — which selections are read back, and which is written like
  the empty one.
-/

namespace CatalogEdit

open Json

/-! ## Quantities -/

theorem InventoryChange.natAbs_le_of_readValue {path : Path} {n m : Int}
    (h : readValue ⟨path, .integer n⟩ = .ok m) : n.natAbs ≤ maxSize := by
  obtain ⟨x, hx, hwhole⟩ := Except.bind_eq_ok.mp h
  obtain rfl : Binary64.ofInt n = x := Except.ok.inj hx
  split at hwhole
  next m' hm =>
    obtain ⟨hint, hmax⟩ := Option.filter_eq_some_iff.mp hm
    have hsmall : m'.natAbs ≤ maxSize := by simpa using hmax
    simp only [maxSize, Binary64.two_pow_eq] at hsmall ⊢
    rcases Nat.lt_or_ge n.natAbs (2 ^ 53) with hlt | hlarge
    · omega
    · -- A quantity that is too large is not rounded to one that is not.
      have := Binary64.le_natAbs_of_toInt?_ofInt hlarge hint
      omega
  next => contradiction

theorem InventoryChange.natAbs_le_of_read_encode {path : Path} {c c' : InventoryChange}
    (h : (Cursor.object ⟨path, c.encode⟩ >>= InventoryChange.read) = .ok c') :
    c.value.natAbs ≤ maxSize := by
  simp only [InventoryChange.read, InventoryChange.encode, Cursor.object, Except.ok_bind,
    Except.bind_eq_ok] at h
  obtain ⟨mode, -, value, hvalue, -⟩ := h
  obtain ⟨cursor, hcursor, hread⟩ := Fields.required_eq_ok.mp hvalue
  obtain rfl : (⟨path.field "value", .integer c.value⟩ : Cursor) = cursor := by
    simpa [Fields.get?, List.lookup_append] using hcursor
  exact natAbs_le_of_readValue hread

/-! ## Edits -/

theorem Change.fitsWire_of_read_encode {path : Path} {change change' : Change}
    (h : Change.read change.operation ⟨path, change.encode⟩ = .ok change') :
    change.FitsWire := by
  cases change with
  | inventory c =>
    simp only [Change.read, encode, operation, ← map_bind] at h
    obtain ⟨c', hc, -⟩ := Except.map_eq_ok.mp h
    exact InventoryChange.natAbs_le_of_read_encode hc
  | price | compareAt | tags | status | metafield | seo => trivial

/-- An edit is only read back if its quantity fits. -/
theorem Edit.fitsWire_of_read_encode {path : Path} {e e' : Edit}
    (h : Edit.read ⟨path, e.encode⟩ = .ok e') : e.change.FitsWire := by
  simp only [Edit.read, Edit.encode, Cursor.object, Except.ok_bind, Except.bind_eq_ok] at h
  obtain ⟨operation, hoperation, scope, -, schedule, -, change, hchange, -⟩ := h
  rw [inverts_named.required (a := e.operation) (by simp)] at hoperation
  obtain rfl := Except.ok.inj hoperation
  obtain ⟨cursor, hcursor, hread⟩ := Fields.required_eq_ok.mp hchange
  obtain rfl : (⟨path.field "params", e.change.encode⟩ : Cursor) = cursor := by
    simpa [Fields.get?] using hcursor
  exact Change.fitsWire_of_read_encode hread

theorem Edit.exists_decode_encode {e : Edit} :
    (∃ e', decode e.encode = .ok e') ↔ e.violations = [] ∧ e.change.FitsWire := by
  constructor
  · rintro ⟨e', h⟩
    obtain ⟨read, hread, -⟩ := Except.bind_eq_ok.mp h
    have hfits := fitsWire_of_read_encode (Except.mapError_eq_ok.mp hread)
    rw [decode_eq_check hfits] at h
    exact ⟨(check_eq_ok.mp (Except.mapError_eq_ok.mp h)).1, hfits⟩
  · rintro ⟨hsound, hfits⟩
    exact ⟨e, decode_encode hfits hsound⟩

/-- Where no rule is broken, only the upper end of the range is left to ask for. -/
theorem Edit.fitsWire_iff_of_sound {e : Edit} (h : e.violations = []) :
    e.change.FitsWire ↔ ∀ c, e.change = .inventory c → c.value ≤ InventoryChange.maxSize := by
  obtain ⟨scope, schedule, change⟩ := e
  cases change with
  | inventory c =>
    have hnonneg : 0 ≤ c.value := by
      simp only [violations, Change.violations, InventoryChange.violations, List.append_eq_nil_iff,
        Violation.ensure_eq_nil, decide_eq_true_eq] at h
      exact h.2.1
    simp only [Change.FitsWire, Change.inventory.injEq, forall_eq']
    omega
  | price | compareAt | tags | status | metafield | seo => simp [Change.FitsWire]

/-- The wire takes back exactly the edits that break no rule and whose quantity, if they have one,
is at most `InventoryChange.maxSize`, that is `2 ^ 53 - 1`. -/
theorem Edit.decode_encode_iff_check (e : Edit) :
    (∃ e', decode e.encode = .ok e') ↔
      (∃ e', e.check = .ok e') ∧
        ∀ c, e.change = .inventory c → c.value ≤ InventoryChange.maxSize := by
  have hcheck : (∃ e', e.check = .ok e') ↔ e.violations = [] :=
    ⟨fun ⟨_, h⟩ => (check_eq_ok.mp h).1, fun h => ⟨e, check_eq_ok.mpr ⟨h, rfl⟩⟩⟩
  rw [exists_decode_encode, hcheck]
  exact and_congr_right fitsWire_iff_of_sound

/-- No rule is broken by a quantity of `2 ^ 53`, but it is not read back. -/
theorem Edit.check_without_decode :
    let e : Edit :=
      { change := .inventory { mode := .set, value := InventoryChange.maxSize + 1 } }
    e.check = .ok e ∧
      decode e.encode = .error (.mismatch ⟨(root.field "params").field "value", .integer⟩) ∧
      ¬ ∀ e : Edit, (∃ e', e.check = .ok e') ↔ ∃ e', decode e.encode = .ok e' := by
  intro e
  have hcheck : e.check = .ok e := Except.toOption_eq_some.mp (by decide +kernel)
  have hdecode : decode e.encode =
      .error (.mismatch ⟨(root.field "params").field "value", .integer⟩) := by
    decide +kernel
  refine ⟨hcheck, hdecode, fun h => ?_⟩
  obtain ⟨e', he'⟩ := (h e).mp ⟨e, hcheck⟩
  exact absurd (hdecode.symm.trans he') (by simp)

/-! ## Selections -/

/-- Every bound there is is a finite number. -/
structure Bounds.IsFinite (b : Bounds) : Prop where
  priceAtLeast : ∀ x ∈ b.priceAtLeast, x.isFinite
  priceAtMost : ∀ x ∈ b.priceAtMost, x.isFinite
  inventoryEquals : ∀ x ∈ b.inventoryEquals, x.isFinite

theorem Selection.violations_eq_nil_iff {s : Selection} :
    s.violations = [] ↔ s.numeric.IsFinite := by
  simp only [violations, List.append_eq_nil_iff, Violation.ofOption_eq_nil, finite_eq_nil]
  constructor
  · rintro ⟨⟨hleast, hmost⟩, hequals⟩
    exact ⟨hleast, hmost, hequals⟩
  · rintro ⟨hleast, hmost, hequals⟩
    exact ⟨⟨hleast, hmost⟩, hequals⟩

theorem Selection.encode_injective {s s' : Selection} (h : s.encode = s'.encode) : s = s' := by
  have hread := Selection.inverts_read Selection.root s
  rw [h, Selection.inverts_read Selection.root s'] at hread
  exact (Except.ok.inj hread).symm

theorem Selection.isEmpty_iff {s : Selection} : s.isEmpty ↔ s = {} := by
  obtain ⟨⟨vendors, types, collections, tags⟩, ⟨excluded⟩, title, ⟨least, most, equals⟩⟩ := s
  simp [isEmpty, Requirements.isEmpty, Bounds.isEmpty, and_assoc]

/-- A selection is read back as it was, in all its parts, exactly if its bounds are finite, and is
rejected otherwise. It is written like a selection without conditions only if it is one. -/
theorem Selection.decode_encode_iff_isFinite (s : Selection) :
    (decode s.encode = .ok s ↔ s.numeric.IsFinite) ∧
      ((∃ error, decode s.encode = .error error) ↔ ¬ s.numeric.IsFinite) ∧
      (s.isEmpty ↔ s.encode = encode {}) := by
  have hempty : s.isEmpty ↔ s.encode = encode {} :=
    isEmpty_iff.trans ⟨congrArg encode, encode_injective⟩
  rw [decode_eq_check, ← violations_eq_nil_iff]
  refine ⟨?_, ?_, hempty⟩
  · rw [Except.mapError_eq_ok, check_eq_ok, and_iff_left rfl]
  · simp only [check]
    cases s.violations with
    | nil => simp [Violation.first]
    | cons v vs => simp [Violation.first]

end CatalogEdit
