import CatalogEdit.Proofs.Wire.RoundTrip

/-!
# No two responses are written alike

Much of a response is never read back: the open questions and their options, drafts, confidence and
the keys of messages. A client still tells any two responses apart, since every field of a value is
found in its object, or is found to be absent. A change of price and one of the compare-at price are
written alike; the operation of the edit tells them apart.

## Main statements

* `Json.injective_of_read` — what is read back is told apart.
* `Json.lookup_eq_of_object_eq` — equal objects agree in every field.
* `Edit.encode_injective`, `Draft.encode_injective`, `Clarification.encode_injective` — the parts of
  a response, whether or not they can be read back.
* `Response.encode_eq_encode_iff` — whole responses.
-/

namespace CatalogEdit

open Json

/-! ## Written values -/

namespace Json

/-- What is read back is told apart. -/
theorem injective_of_read {ε α : Type} {encode : α → Json} (read : Json → Except ε α)
    (h : ∀ a, read (encode a) = .ok a) : Function.Injective encode := by
  intro a b heq
  have hread := h a
  rw [heq, h b] at hread
  exact (Except.ok.inj hread).symm

theorem Inverts.injective {α : Type} {read : Cursor → Except Mismatch α} {encode : α → Json}
    (h : Inverts read encode) : Function.Injective encode :=
  injective_of_read (fun j => read ⟨[], j⟩) (h [])

theorem lookup_eq_of_object_eq {fields fields' : List (Text × Json)}
    (h : Json.object fields = .object fields') (name : String) :
    fields.lookup (utf8 name) = fields'.lookup (utf8 name) := by
  rw [Json.object.inj h]

theorem string_injective : Function.Injective Json.string := inverts_text.injective

end Json

theorem encodeName_injective {α : Type} [Named α] [LawfulNamed α] :
    Function.Injective (encodeName (α := α)) :=
  inverts_named.injective

/-! ## Edits -/

theorem PriceChange.encode_injective : Function.Injective PriceChange.encode :=
  injective_of_read (fun j => Cursor.object ⟨[], j⟩ >>= PriceChange.read)
    (PriceChange.read_encode [])

theorem TagChange.encode_injective : Function.Injective TagChange.encode :=
  injective_of_read (fun j => Cursor.object ⟨[], j⟩ >>= TagChange.read) (TagChange.read_encode [])

/-- Quantities of any size are told apart, also those that are not read back. -/
theorem InventoryChange.encode_injective : Function.Injective InventoryChange.encode := by
  rintro ⟨mode, value, location⟩ ⟨mode', value', location'⟩ heq
  have hfield := lookup_eq_of_object_eq heq
  have hmode : encodeName mode = encodeName mode' := by
    simpa [List.lookup_append] using hfield "mode"
  have hvalue : value = value' := by simpa [List.lookup_append] using hfield "value"
  have hlocation : location.map Json.string = location'.map Json.string := by
    simpa [List.lookup_append] using hfield "locationId"
  rw [encodeName_injective hmode, hvalue, Option.map_injective string_injective hlocation]

/-- Changes of one operation are told apart. -/
theorem Change.eq_of_encode_eq {change change' : Change}
    (hoperation : change.operation = change'.operation) (heq : change.encode = change'.encode) :
    change = change' := by
  cases change <;> cases change' <;> try contradiction
  case price.price c c' => rw [PriceChange.encode_injective heq]
  case compareAt.compareAt c c' => rw [PriceChange.encode_injective heq]
  case tags.tags c c' => rw [TagChange.encode_injective heq]
  case inventory.inventory c c' => rw [InventoryChange.encode_injective heq]
  case status.status s s' =>
    have hstatus : encodeName s = encodeName s' := by
      simpa using lookup_eq_of_object_eq heq "status"
    rw [encodeName_injective hstatus]
  case metafield.metafield m m' =>
    have hfield : m.encode = m'.encode := by
      simpa using lookup_eq_of_object_eq heq "metafield"
    rw [Metafield.inverts_read.injective hfield]
  case seo.seo s s' =>
    have hseo : s.encode = s'.encode := by simpa using lookup_eq_of_object_eq heq "seo"
    rw [Seo.inverts_read.injective hseo]

theorem Edit.encode_injective : Function.Injective Edit.encode := by
  intro e e' heq
  have hfield := lookup_eq_of_object_eq heq
  have hoperation : encodeName e.operation = encodeName e'.operation := by
    simpa using hfield "operation"
  have hparams : e.change.encode = e'.change.encode := by simpa using hfield "params"
  have hschedule : e.schedule.map Json.string = e'.schedule.map Json.string := by
    simpa [List.lookup_append] using hfield "schedule"
  have hscope : encodeName e.scope = encodeName e'.scope := by
    simpa [List.lookup_append] using hfield "scope"
  have hchange := Change.eq_of_encode_eq (encodeName_injective hoperation) hparams
  obtain ⟨scope, schedule, change⟩ := e
  obtain ⟨scope', schedule', change'⟩ := e'
  rw [Edit.mk.injEq]
  exact ⟨encodeName_injective hscope, Option.map_injective string_injective hschedule, hchange⟩

/-! ## Parts of responses -/

theorem Choice.encode_injective : Function.Injective Choice.encode := by
  rintro ⟨value, labelKey⟩ ⟨value', labelKey'⟩ heq
  have hfield := lookup_eq_of_object_eq heq
  have hlabelKey : labelKey = labelKey' := by simpa using hfield "labelKey"
  have hvalue : value = value' := by simpa using hfield "value"
  rw [hvalue, hlabelKey]

/-- A list of options is not empty where it is written, so an empty one is told apart too. -/
theorem Issue.encode_injective : Function.Injective Issue.encode := by
  rintro ⟨code, messageKey, options⟩ ⟨code', messageKey', options'⟩ heq
  have hfield := lookup_eq_of_object_eq heq
  have hcode : encodeName code = encodeName code' := by simpa using hfield "code"
  have hmessageKey : messageKey = messageKey' := by simpa using hfield "messageKey"
  have hoptions : options = options' := by
    have hlookup := hfield "options"
    cases options with
    | nil => cases options' with
      | nil => rfl
      | cons o' options' => simp at hlookup
    | cons o options => cases options' with
      | nil => simp at hlookup
      | cons o' options' =>
        have hmap : (o :: options).map Choice.encode = (o' :: options').map Choice.encode := by
          simpa using hlookup
        exact (List.map_inj_right fun _ _ h => Choice.encode_injective h).mp hmap
  rw [encodeName_injective hcode, hmessageKey, hoptions]

theorem Draft.encode_injective : Function.Injective Draft.encode := by
  rintro ⟨edit, selection, confidence, summaryKey⟩ ⟨edit', selection', confidence', summaryKey'⟩ heq
  have hfield := lookup_eq_of_object_eq heq
  have hedit : edit.map Edit.encode = edit'.map Edit.encode := by
    simpa [List.lookup_append] using hfield "opSpec"
  have hselection : selection.map Selection.encode = selection'.map Selection.encode := by
    simpa [List.lookup_append] using hfield "filterSpec"
  have hconfidence : confidence.map encodeName = confidence'.map encodeName := by
    simpa [List.lookup_append] using hfield "confidence"
  have hsummaryKey : summaryKey.map Json.string = summaryKey'.map Json.string := by
    simpa [List.lookup_append] using hfield "summaryKey"
  rw [Option.map_injective Edit.encode_injective hedit,
    Option.map_injective Selection.inverts_read.injective hselection,
    Option.map_injective encodeName_injective hconfidence,
    Option.map_injective string_injective hsummaryKey]

/-! ## Responses -/

theorem Plan.encode_injective : Function.Injective Plan.encode := by
  rintro ⟨edit, selection, confidence, summaryKey⟩ ⟨edit', selection', confidence', summaryKey'⟩ heq
  have hfield := lookup_eq_of_object_eq heq
  have hedit : edit.encode = edit'.encode := by simpa using hfield "opSpec"
  have hselection : selection.encode = selection'.encode := by simpa using hfield "filterSpec"
  have hconfidence : encodeName confidence = encodeName confidence' := by
    simpa using hfield "confidence"
  have hsummaryKey : summaryKey.map Json.string = summaryKey'.map Json.string := by
    simpa [List.lookup_append] using hfield "summaryKey"
  rw [Edit.encode_injective hedit, Selection.inverts_read.injective hselection,
    encodeName_injective hconfidence, Option.map_injective string_injective hsummaryKey]

theorem Clarification.encode_injective : Function.Injective Clarification.encode := by
  rintro ⟨issues, draft⟩ ⟨issues', draft'⟩ heq
  have hfield := lookup_eq_of_object_eq heq
  have hissues : issues.map Issue.encode = issues'.map Issue.encode := by
    simpa [List.lookup_append] using hfield "issues"
  have hdraft : draft.map Draft.encode = draft'.map Draft.encode := by
    simpa [List.lookup_append] using hfield "draft"
  rw [(List.map_inj_right fun _ _ h => Issue.encode_injective h).mp hissues,
    Option.map_injective Draft.encode_injective hdraft]

theorem Refusal.encode_injective : Function.Injective Refusal.encode := by
  rintro ⟨code, message⟩ ⟨code', message'⟩ heq
  have hfield := lookup_eq_of_object_eq heq
  have hcode : code = code' := by simpa using hfield "code"
  have hmessage : message = message' := by simpa using hfield "message"
  rw [hcode, hmessage]

/-- The field `action` of a written response says what kind of response it is. -/
theorem Response.lookup_action_encode (r : Response) :
    ∃ fields, r.encode = .object fields ∧
      fields.lookup (utf8 "action") = some (.string r.action) := by
  cases r with
  | plan p => exact ⟨_, rfl, by simp [action]⟩
  | clarification c => exact ⟨_, rfl, by simp [action]⟩
  | refusal r => exact ⟨_, rfl, by simp [action]⟩

theorem Response.action_eq_of_encode_eq {r r' : Response} (heq : r.encode = r'.encode) :
    r.action = r'.action := by
  obtain ⟨fields, hfields, haction⟩ := r.lookup_action_encode
  obtain ⟨fields', hfields', haction'⟩ := r'.lookup_action_encode
  have hlookup := lookup_eq_of_object_eq (hfields.symm.trans (heq.trans hfields')) "action"
  rw [haction, haction'] at hlookup
  exact Json.string.inj (Option.some.inj hlookup)

/-- Two responses are written alike only if they are the same in all their parts: kind, edit,
selection, issues with their options, draft, confidence, keys and messages. -/
theorem Response.encode_eq_encode_iff (r r' : Response) : r.encode = r'.encode ↔ r = r' := by
  refine ⟨fun heq => ?_, congrArg encode⟩
  have haction := action_eq_of_encode_eq heq
  cases r <;> cases r' <;> simp only [action, utf8_inj, String.reduceEq] at haction
  case plan.plan p p' => rw [Plan.encode_injective heq]
  case clarification.clarification c c' => rw [Clarification.encode_injective heq]
  case refusal.refusal r r' => rw [Refusal.encode_injective heq]

end CatalogEdit
