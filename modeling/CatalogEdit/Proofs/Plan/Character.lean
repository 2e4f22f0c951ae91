import CatalogEdit.Proofs.Plan.Sound
import CatalogEdit.Proofs.Residue.Character

/-!
# Responses to well-formed requests are well formed

Whatever a well-formed request says, every string in the JSON form of the response to it is well
formed: the names of fields, the codes and keys of the library, and what was read from the request.

## Main definitions

* `Json.HasText` — a text stands in a JSON value, as a string or as the name of a field.
* `Json.IsWellFormed` — every text in it is well formed.

## Main statements

* `isWellFormed_draftResponse` — responses to well-formed texts are well formed.
* `planning_keeps_characters` — planning succeeds, with such a response.
-/

namespace CatalogEdit

open Utf8 (isWellFormed)

/-! ## Texts in JSON values -/

namespace Json

/-- The text stands in the value, as a string or as the name of a field. -/
inductive HasText : Json → Text → Prop where
  | string (t : Text) : HasText (.string t) t
  | item {items : List Json} {j : Json} {t : Text} (h : j ∈ items) (ht : HasText j t) :
      HasText (.array items) t
  | name {fields : List (Text × Json)} {name : Text} {v : Json} (h : (name, v) ∈ fields) :
      HasText (.object fields) name
  | value {fields : List (Text × Json)} {name t : Text} {v : Json} (h : (name, v) ∈ fields)
      (ht : HasText v t) : HasText (.object fields) t

/-- Every text in the value is well formed. -/
def IsWellFormed (j : Json) : Prop := ∀ t, HasText j t → isWellFormed t

/-- Every name and every text in a value is well formed. -/
def AreWellFormed (fields : List (Text × Json)) : Prop :=
  ∀ f ∈ fields, isWellFormed f.1 ∧ f.2.IsWellFormed

@[simp] theorem isWellFormed_null : IsWellFormed .null := nofun

@[simp] theorem isWellFormed_integer (n : Int) : IsWellFormed (.integer n) := nofun

@[simp] theorem isWellFormed_number (x : Binary64) : IsWellFormed (.number x) := nofun

@[simp] theorem isWellFormed_string {t : Text} : IsWellFormed (.string t) ↔ isWellFormed t := by
  constructor
  · exact fun h => h t (.string t)
  · rintro h _ ⟨⟩
    exact h

@[simp] theorem isWellFormed_array {items : List Json} :
    IsWellFormed (.array items) ↔ ∀ j ∈ items, j.IsWellFormed := by
  constructor
  · exact fun h j hj t ht => h t (.item hj ht)
  · rintro h t ⟨⟩
    next j hj ht => exact h j hj t ht

@[simp] theorem isWellFormed_object {fields : List (Text × Json)} :
    IsWellFormed (.object fields) ↔ AreWellFormed fields := by
  constructor
  · exact fun h f hf => ⟨h f.1 (.name hf), fun t ht => h t (.value hf ht)⟩
  · rintro h t (_ | _ | hname | ⟨hvalue, ht⟩)
    · exact (h _ hname).1
    · exact (h _ hvalue).2 t ht

@[simp] theorem areWellFormed_nil : AreWellFormed [] := nofun

@[simp] theorem areWellFormed_cons {name : Text} {v : Json} {fields : List (Text × Json)} :
    AreWellFormed ((name, v) :: fields) ↔
      (isWellFormed name ∧ v.IsWellFormed) ∧ AreWellFormed fields :=
  List.forall_mem_cons

@[simp] theorem areWellFormed_append {fields fields' : List (Text × Json)} :
    AreWellFormed (fields ++ fields') ↔ AreWellFormed fields ∧ AreWellFormed fields' :=
  List.forall_mem_append

@[simp] theorem areWellFormed_fieldOfOption {α : Type} {name : String} {encode : α → Json}
    {o : Option α} :
    AreWellFormed (fieldOfOption name encode o) ↔ ∀ a ∈ o, (encode a).IsWellFormed := by
  cases o with
  | none => simp [fieldOfOption]
  | some a => simp [fieldOfOption]

end Json

/-- The names of the members are well formed. -/
class WellFormedNames (α : Type) [Named α] : Prop where
  isWellFormed_name : ∀ a : α, isWellFormed (Named.name a)

instance : WellFormedNames Scope := ⟨fun a => by cases a <;> exact Utf8.isWellFormed_utf8 _⟩
instance : WellFormedNames Operation := ⟨fun a => by cases a <;> exact Utf8.isWellFormed_utf8 _⟩
instance : WellFormedNames PriceMode := ⟨fun a => by cases a <;> exact Utf8.isWellFormed_utf8 _⟩
instance : WellFormedNames TagMode := ⟨fun a => by cases a <;> exact Utf8.isWellFormed_utf8 _⟩
instance : WellFormedNames InventoryMode :=
  ⟨fun a => by cases a <;> exact Utf8.isWellFormed_utf8 _⟩
instance : WellFormedNames Status := ⟨fun a => by cases a <;> exact Utf8.isWellFormed_utf8 _⟩
instance : WellFormedNames Confidence := ⟨fun a => by cases a <;> exact Utf8.isWellFormed_utf8 _⟩
instance : WellFormedNames IssueCode := ⟨fun a => by cases a <;> exact Utf8.isWellFormed_utf8 _⟩

@[simp] theorem isWellFormed_encodeName {α : Type} [Named α] [WellFormedNames α] (a : α) :
    (encodeName a).IsWellFormed :=
  Json.isWellFormed_string.mpr (WellFormedNames.isWellFormed_name a)

@[simp] theorem isWellFormed_encodeTexts {ts : List Text} :
    (encodeTexts ts).IsWellFormed ↔ ∀ t ∈ ts, isWellFormed t := by
  simp [encodeTexts]

/-! ## Parts of a response -/

variable {t : Text}

theorem Edit.isWellFormed_encode {e : Edit} (hschedule : ∀ s ∈ e.schedule, isWellFormed s)
    (hchange : e.change.encode.IsWellFormed) : e.encode.IsWellFormed := by
  simpa [Edit.encode, hchange] using hschedule

theorem Plan.isWellFormed_encode {p : Plan} (hedit : p.edit.encode.IsWellFormed)
    (hselection : p.selection.encode.IsWellFormed) (hsummary : ∀ s ∈ p.summaryKey, isWellFormed s) :
    p.encode.IsWellFormed := by
  simpa [Plan.encode, hedit, hselection] using hsummary

theorem Selection.isWellFormed_encode_ofText {commandWords : List Text}
    (hwords : ∀ word ∈ commandWords, isWellFormed word) (ht : isWellFormed t) :
    (Selection.ofText t commandWords).encode.IsWellFormed := by
  have hresidue := Residue.isWellFormed_ofText hwords ht
  rw [Selection.ofText]
  split
  next => simp [Selection.encode, Requirements.encode, Bounds.encode, hresidue]
  next => simp [Selection.encode, Requirements.encode, Bounds.encode]

theorem Issue.isWellFormed_encode {i : Issue} (hkey : isWellFormed i.messageKey)
    (hoptions : ∀ c ∈ i.options, isWellFormed c.labelKey ∧ isWellFormed c.value) :
    i.encode.IsWellFormed := by
  have hchoices : ∀ c ∈ i.options, c.encode.IsWellFormed := by
    intro c hc
    simpa [Choice.encode] using hoptions c hc
  rw [Issue.encode]
  split
  next => simpa using hkey
  next => simpa [hkey] using hchoices

theorem Response.isWellFormed_clarification {issues : List Issue} {draft : Option Draft}
    (hissues : ∀ i ∈ issues, i.encode.IsWellFormed)
    (hdraft : ∀ d ∈ draft, d.encode.IsWellFormed) :
    (Response.clarification ⟨issues, draft⟩).encode.IsWellFormed := by
  simpa [Response.encode, Clarification.encode] using ⟨hdraft, hissues⟩

theorem Response.isWellFormed_ask {issue : Issue} (h : issue.encode.IsWellFormed) :
    (Response.ask issue).encode.IsWellFormed :=
  isWellFormed_clarification (by simpa using h) (by simp)

/-! ## Requests of each topic -/

theorem Lexicon.isWellFormed_of_mem_commandWords (topic : Topic) :
    ∀ word ∈ commandWords topic, isWellFormed word := by
  cases topic <;> decide +kernel

namespace PriceRequest

theorem isWellFormed_plan {intent : PriceIntent} {mode : PriceMode} {value : Binary64}
    (ht : isWellFormed t) : (plan t intent mode value).encode.IsWellFormed := by
  have hselection : (Selection.ofText t Lexicon.Price.commandWords).encode.IsWellFormed :=
    Selection.isWellFormed_encode_ofText (Lexicon.isWellFormed_of_mem_commandWords .price) ht
  refine Plan.isWellFormed_encode ?edit (by simpa only [plan] using hselection) ?summary
  case edit =>
    refine Edit.isWellFormed_encode (by simp [plan]) ?_
    cases hcompareAt : isCompareAt t <;>
      simp [plan, hcompareAt, Change.encode, PriceChange.encode]
  case summary =>
    have hending : isWellFormed (intent.summaryEnding mode) := by
      cases intent <;> cases mode <;> exact Utf8.isWellFormed_utf8 _
    cases hcompareAt : isCompareAt t <;>
      simp [plan, hcompareAt, Lexicon.Summary.compareAt, Lexicon.Summary.price,
        Utf8.isWellFormed_append, hending]

theorem isWellFormed_respond (ht : isWellFormed t) : (respond t).encode.IsWellFormed := by
  rw [respond]
  split
  next => exact isWellFormed_plan ht
  next =>
    refine Response.isWellFormed_ask (Issue.isWellFormed_encode ?_ (by simp))
    exact Utf8.isWellFormed_utf8 _

end PriceRequest

namespace TagRequest

theorem isWellFormed_plan {values : List Text} (hvalues : ∀ tag ∈ values, isWellFormed tag)
    (ht : isWellFormed t) : (plan t values).encode.IsWellFormed := by
  have hselection : (Selection.ofText t Lexicon.Tags.commandWords).encode.IsWellFormed :=
    Selection.isWellFormed_encode_ofText (Lexicon.isWellFormed_of_mem_commandWords .tags) ht
  refine Plan.isWellFormed_encode ?edit (by simpa only [plan] using hselection) ?summary
  case edit =>
    refine Edit.isWellFormed_encode (by simp [plan]) ?_
    simpa [plan, Change.encode, TagChange.encode] using hvalues
  case summary =>
    have hkey : ∀ mode, isWellFormed (Lexicon.Summary.tags mode) := by
      intro mode
      cases mode <;> exact Utf8.isWellFormed_utf8 _
    simp [plan, hkey]

theorem isWellFormed_respond (ht : isWellFormed t) : (respond t).encode.IsWellFormed := by
  rw [respond]
  split
  next =>
    refine Response.isWellFormed_ask (Issue.isWellFormed_encode ?_ (by simp))
    exact Utf8.isWellFormed_utf8 _
  next => exact isWellFormed_plan (fun _ => Mention.isWellFormed_of_mem_tags ht) ht

end TagRequest

namespace InventoryRequest

theorem isWellFormed_withoutPlace (ht : isWellFormed t) : isWellFormed (withoutPlace t) := by
  rw [withoutPlace]
  split
  next => exact ht
  next place hplace =>
    exact Text.isWellFormed_removeWord (Mention.isWellFormed_of_location? hplace) ht

theorem isWellFormed_selection (ht : isWellFormed t) : (selection t).encode.IsWellFormed := by
  rw [selection]
  exact Selection.isWellFormed_encode_ofText (Lexicon.isWellFormed_of_mem_commandWords .inventory)
    (isWellFormed_withoutPlace ht)

theorem isWellFormed_edit (t : Text) (quantity : Int) : (edit t quantity).encode.IsWellFormed := by
  refine Edit.isWellFormed_encode (by simp [edit]) ?_
  have hplace : ∀ place ∈ Mention.location? t, isWellFormed place :=
    fun place => Mention.isWellFormed_of_location?
  simpa [edit, Change.encode, InventoryChange.encode] using hplace

theorem isWellFormed_plan (ht : isWellFormed t) (quantity : Int) :
    (plan t quantity).encode.IsWellFormed :=
  Plan.isWellFormed_encode (by simpa only [plan] using isWellFormed_edit t quantity)
    (by simpa only [plan] using isWellFormed_selection ht)
    (by simp [plan, Lexicon.Summary.inventory])

theorem isWellFormed_draft (ht : isWellFormed t) (quantity : Int) :
    (draft t quantity).encode.IsWellFormed := by
  simp [draft, Draft.encode, isWellFormed_edit, isWellFormed_selection ht]

theorem isWellFormed_amountIssue : amountIssue.encode.IsWellFormed :=
  Issue.isWellFormed_encode (Utf8.isWellFormed_utf8 _) (by simp [amountIssue])

theorem isWellFormed_placeIssue : placeIssue.encode.IsWellFormed :=
  Issue.isWellFormed_encode (Utf8.isWellFormed_utf8 _) (by simp [placeIssue])

theorem isWellFormed_respond (ht : isWellFormed t) : (respond t).encode.IsWellFormed := by
  rw [respond]
  split
  next quantity _ _ _ => exact isWellFormed_plan ht quantity
  next quantity _ _ =>
    exact Response.isWellFormed_clarification (by simp [isWellFormed_placeIssue])
      (by simp [isWellFormed_draft ht])
  next => exact Response.isWellFormed_ask isWellFormed_amountIssue
  next =>
    exact Response.isWellFormed_clarification
      (by simp [isWellFormed_amountIssue, isWellFormed_placeIssue]) (by simp)

end InventoryRequest

namespace StatusRequest

theorem isWellFormed_plan (ht : isWellFormed t) (status : Status) :
    (plan t status).encode.IsWellFormed := by
  have hselection : (Selection.ofText t Lexicon.Status.commandWords).encode.IsWellFormed :=
    Selection.isWellFormed_encode_ofText (Lexicon.isWellFormed_of_mem_commandWords .status) ht
  refine Plan.isWellFormed_encode ?edit (by simpa only [plan] using hselection) ?summary
  case edit => exact Edit.isWellFormed_encode (by simp [plan]) (by simp [plan, Change.encode])
  case summary => simp [plan, Lexicon.Summary.status]

theorem isWellFormed_respond (ht : isWellFormed t) : (respond t).encode.IsWellFormed := by
  rw [respond]
  split
  next status _ => exact isWellFormed_plan ht status
  next =>
    have hchoices : ∀ c ∈ choices, isWellFormed c.labelKey ∧ isWellFormed c.value := by
      decide +kernel
    exact Response.isWellFormed_ask (Issue.isWellFormed_encode (Utf8.isWellFormed_utf8 _) hchoices)

end StatusRequest

/-! ## Requests of any kind -/

theorem Topic.isWellFormed_respond (ht : isWellFormed t) (topic : Topic) :
    (topic.respond t).encode.IsWellFormed := by
  cases topic with
  | price => exact PriceRequest.isWellFormed_respond ht
  | tags => exact TagRequest.isWellFormed_respond ht
  | inventory => exact InventoryRequest.isWellFormed_respond ht
  | status => exact StatusRequest.isWellFormed_respond ht

theorem isWellFormed_draftResponse (ht : isWellFormed t) :
    (draftResponse t).encode.IsWellFormed := by
  rw [draftResponse]
  split
  next topic _ => exact topic.isWellFormed_respond ht
  next =>
    refine Response.isWellFormed_ask (Issue.isWellFormed_encode ?_ (by simp))
    exact Utf8.isWellFormed_utf8 _

theorem Refusal.isWellFormed_blankText : blankText.encode.IsWellFormed := by
  simp [blankText, Refusal.encode, invalidRequestCode]

/-- Planning gives a response to every request. If the text of the request is well formed, so is
every text in the JSON form of the response. -/
theorem planning_keeps_characters {r : Request} (h : isWellFormed r.text) :
    ∃ response, r.respond = .ok response ∧
      ∀ t, response.encode.HasText t → isWellFormed t := by
  refine ⟨_, r.respond_eq, ?_⟩
  split
  next => exact Refusal.isWellFormed_blankText
  next => exact isWellFormed_draftResponse ((Text.isWellFormed_trim r.text).mpr h)

theorem planning_keeps_characters_dessert :
    let r : Request := { text := utf8 "Add tags \"été €5\" to crème brûlée" }
    ∃ p : Plan, r.respond = .ok (.plan p) ∧
      p.edit.change = .tags ⟨.add, [utf8 "été €5"]⟩ ∧
      p.selection.titleContains = some (utf8 "crème brûlée") ∧
      ∀ t, p.encode.HasText t → isWellFormed t := by
  intro r
  have hplan : r.respond = .ok (.plan (TagRequest.plan r.text [utf8 "été €5"])) :=
    Except.toOption_eq_some.mp (by decide +kernel)
  obtain ⟨response, hrespond, htexts⟩ :=
    planning_keeps_characters (r := r) (Utf8.isWellFormed_utf8 _)
  obtain rfl := Except.ok.inj (hrespond.symm.trans hplan)
  exact ⟨_, hplan, by decide +kernel, by decide +kernel, htexts⟩

end CatalogEdit
