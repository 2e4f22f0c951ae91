import CatalogEdit.Endpoint
import CatalogEdit.Proofs.Mention.Amount
import CatalogEdit.Proofs.Mention.Place
import CatalogEdit.Proofs.Mention.Tags
import CatalogEdit.Proofs.Wire.RoundTrip

/-!
# Responses are sound

Whatever a request says, the response to it breaks no rule: amounts are finite, tags and places
are not empty, quantities are whole, not negative and small enough for the wire. So planning always
gives a response, the edits and selections in it survive the wire, and the endpoint never has to
blame its own planner.

## Main definitions

* `Response.edits`, `Response.selections` — what a plan or a draft holds.
* `Response.IsSound` — no rule is broken, and every edit fits the wire.

## Main statements

* `isSound_draftResponse` — every response is sound before it is checked.
* `respondToText_eq` — the check changes nothing.
* `planning_never_fails` — planning always succeeds, with a response that survives the wire.
-/

namespace CatalogEdit

/-! ## What a response holds -/

def Response.edits : Response → List Edit
  | .plan p => [p.edit]
  | .clarification c => (c.draft.bind Draft.edit).toList
  | .refusal _ => []

def Response.selections : Response → List Selection
  | .plan p => [p.selection]
  | .clarification c => (c.draft.bind Draft.selection).toList
  | .refusal _ => []

structure Response.IsSound (r : Response) : Prop where
  violations : r.violations = []
  fitsWire : ∀ e ∈ r.edits, e.change.FitsWire

namespace Response

/-- If no rule is broken by a response, none is broken by the edits and selections in it. -/
theorem violations_parts {r : Response} (h : r.violations = []) :
    (∀ e ∈ r.edits, e.violations = []) ∧ ∀ s ∈ r.selections, s.violations = [] := by
  cases r with
  | plan p => simpa [edits, selections, violations, Plan.violations] using h
  | clarification c =>
    simp only [violations, Clarification.violations, Draft.violations, List.append_eq_nil_iff,
      Violation.ofOption_eq_nil] at h
    obtain ⟨-, hdraft⟩ := h
    constructor
    · intro e he
      obtain ⟨d, hd, hedit⟩ := Option.bind_eq_some_iff.mp (Option.mem_toList.mp he)
      exact (hdraft d hd).1 e hedit
    · intro s hs
      obtain ⟨d, hd, hselection⟩ := Option.bind_eq_some_iff.mp (Option.mem_toList.mp hs)
      exact (hdraft d hd).2 s hselection
  | refusal r => simp [edits, selections]

/-- A sound response is given out as it is, and what it holds is read back from the wire. -/
theorem IsSound.survives {r : Response} (h : r.IsSound) :
    r.check = .ok r ∧ (∀ e ∈ r.edits, Edit.decode e.encode = .ok e) ∧
      ∀ s ∈ r.selections, Selection.decode s.encode = .ok s := by
  obtain ⟨hedits, hselections⟩ := violations_parts h.violations
  exact ⟨check_eq_ok.mpr ⟨h.violations, rfl⟩,
    fun e he => Edit.decode_encode (h.fitsWire e he) (hedits e he),
    fun s hs => Selection.decode_encode (hselections s hs)⟩

end Response

/-! ## Requests of each topic -/

@[simp] theorem Selection.violations_ofText (t : Text) (commandWords : List Text) :
    (Selection.ofText t commandWords).violations = [] := by
  simp only [Selection.ofText]
  split <;> rfl

/-- Questions without a draft break no rule if there are some, and all of them say something. -/
theorem Response.isSound_issues {issues : List Issue} (hne : issues ≠ [])
    (h : ∀ i ∈ issues, i.messageKey ≠ []) :
    (Response.clarification { issues }).IsSound where
  violations := by
    simpa [Response.violations, Clarification.violations, Issue.violations, hne] using h
  fitsWire := by simp [edits]

theorem Response.isSound_ask {issue : Issue} (h : issue.messageKey ≠ []) :
    (Response.ask issue).IsSound :=
  isSound_issues (List.cons_ne_nil _ _) (by simpa using h)

theorem PriceIntent.isFinite_of_amount? {t : Text} {intent : PriceIntent} {mode : PriceMode}
    {value : Binary64} (h : intent.amount? t = some (mode, value)) : value.isFinite := by
  have hsigned : ∀ negative, signedAmount? negative t = some (mode, value) → value.isFinite := by
    intro negative h
    simp only [signedAmount?] at h
    split at h
    next percent hpercent =>
      obtain ⟨-, rfl⟩ := Prod.mk.inj (Option.some.inj h)
      exact (Binary64.isFinite_signed _ _).trans (Mention.isFinite_of_percentage? hpercent)
    next =>
      obtain ⟨amount, hamount, heq⟩ := Option.map_eq_some_iff.mp h
      obtain ⟨-, rfl⟩ := Prod.mk.inj heq
      exact (Binary64.isFinite_signed _ _).trans (Mention.isFinite_of_currencyAmount? hamount)
  cases intent with
  | increase => exact hsigned false h
  | decrease => exact hsigned true h
  | set =>
    obtain ⟨amount, hamount, heq⟩ := Option.map_eq_some_iff.mp h
    obtain ⟨-, rfl⟩ := Prod.mk.inj heq
    exact Mention.isFinite_of_currencyAmount? hamount

theorem PriceRequest.isSound_plan {t : Text} {intent : PriceIntent} {mode : PriceMode}
    {value : Binary64} (h : value.isFinite) :
    (Response.plan (plan t intent mode value)).IsSound := by
  cases hcompareAt : isCompareAt t with
  | true =>
    exact ⟨by simp [Response.violations, Plan.violations, Edit.violations, plan, hcompareAt,
      Change.violations, PriceChange.violations, h],
      by simp [Response.edits, plan, hcompareAt, Change.FitsWire]⟩
  | false =>
    exact ⟨by simp [Response.violations, Plan.violations, Edit.violations, plan, hcompareAt,
      Change.violations, PriceChange.violations, h],
      by simp [Response.edits, plan, hcompareAt, Change.FitsWire]⟩

theorem PriceRequest.isSound_respond (t : Text) : (respond t).IsSound := by
  simp only [respond]
  split
  next intent mode value h =>
    obtain ⟨_, -, hamount⟩ := Option.bind_eq_some_iff.mp h
    obtain ⟨_, hvalue, heq⟩ := Option.map_eq_some_iff.mp hamount
    obtain ⟨rfl, rfl⟩ := Prod.mk.inj heq
    exact isSound_plan (PriceIntent.isFinite_of_amount? hvalue)
  next => exact Response.isSound_ask (by decide)

theorem TagRequest.isSound_plan {t : Text} {values : List Text} (hne : values ≠ [])
    (h : ∀ tag ∈ values, tag ≠ []) : (Response.plan (plan t values)).IsSound where
  violations := by
    have hvalues : ∀ tag index, (tag, index) ∈ values.zipIdx → tag ≠ [] :=
      fun tag index hmem => h tag (List.fst_mem_of_mem_zipIdx hmem)
    simpa [Response.violations, Plan.violations, Edit.violations, plan, Change.violations,
      TagChange.violations, hne] using hvalues
  fitsWire := by simp [Response.edits, plan, Change.FitsWire]

theorem TagRequest.isSound_respond (t : Text) : (respond t).IsSound := by
  simp only [respond]
  split
  next => exact Response.isSound_ask (by decide)
  next hne =>
    exact isSound_plan (by simpa using hne) fun tag => Mention.ne_nil_of_mem_tags

namespace InventoryRequest

variable {t : Text} {q : Int}

theorem violations_edit (h : quantity? t = some q) : (edit t q).violations = [] := by
  have hplace : ∀ place, Mention.location? t = some place → place ≠ [] :=
    fun _ => Mention.location?_ne_nil
  simpa [Edit.violations, edit, Change.violations, InventoryChange.violations,
    (quantity?_bounds h).1] using hplace

theorem fitsWire_edit (h : quantity? t = some q) : (edit t q).change.FitsWire := by
  obtain ⟨hpos, hmax⟩ := quantity?_bounds h
  simp only [edit, Change.FitsWire, maxQuantity, InventoryChange.maxSize] at hmax ⊢
  omega

theorem isSound_plan (h : quantity? t = some q) : (Response.plan (plan t q)).IsSound where
  violations := by
    simp [Response.violations, Plan.violations, plan, violations_edit h, selection]
  fitsWire := by simpa [Response.edits, plan] using fitsWire_edit h

theorem isSound_draft (h : quantity? t = some q) :
    (Response.clarification { issues := [placeIssue], draft := some (draft t q) }).IsSound where
  violations := by
    have hkey : placeIssue.messageKey ≠ [] := by decide
    simpa [Response.violations, Clarification.violations, Issue.violations, Draft.violations, draft,
      violations_edit h, selection] using hkey
  fitsWire := by simpa [Response.edits, draft] using fitsWire_edit h

theorem isSound_respond (t : Text) : (respond t).IsSound := by
  simp only [respond]
  split
  next q _ hquantity _ => exact isSound_plan hquantity
  next q hquantity _ => exact isSound_draft hquantity
  next => exact Response.isSound_ask (by decide)
  next => exact Response.isSound_issues (List.cons_ne_nil _ _) (by decide)

end InventoryRequest

theorem StatusRequest.isSound_respond (t : Text) : (respond t).IsSound := by
  simp only [respond]
  split
  next status _ =>
    exact ⟨by simp [Response.violations, Plan.violations, Edit.violations, plan, Change.violations],
      by simp [Response.edits, plan, Change.FitsWire]⟩
  next => exact Response.isSound_ask (by decide)

/-! ## Requests of any kind -/

theorem Topic.isSound_respond (t : Text) (topic : Topic) : (topic.respond t).IsSound := by
  cases topic with
  | price => exact PriceRequest.isSound_respond t
  | tags => exact TagRequest.isSound_respond t
  | inventory => exact InventoryRequest.isSound_respond t
  | status => exact StatusRequest.isSound_respond t

theorem isSound_draftResponse (t : Text) : (draftResponse t).IsSound := by
  simp only [draftResponse]
  split
  next topic _ => exact topic.isSound_respond t
  next => exact Response.isSound_ask (by decide)

theorem respondToText_eq (t : Text) : respondToText t = .ok (draftResponse t.trim) :=
  (isSound_draftResponse t.trim).survives.1

theorem draftResponse_of_respondToText {t : Text} {r : Response} (h : respondToText t = .ok r) :
    draftResponse t.trim = r :=
  Except.ok.inj ((respondToText_eq t).symm.trans h)

/-- A request is refused if its text is blank, and answered as its text asks otherwise. -/
theorem Request.respond_eq (r : Request) :
    r.respond = .ok (if r.text.label?.isNone then .refusal Refusal.blankText
      else draftResponse r.text.trim) := by
  simp only [Request.respond]
  split
  next => rfl
  next => exact respondToText_eq r.text

theorem Request.exists_isSound_respond (r : Request) :
    ∃ response : Response, r.respond = .ok response ∧ response.IsSound := by
  refine ⟨_, r.respond_eq, ?_⟩
  split
  next => exact ⟨by decide, by simp [Response.edits]⟩
  next => exact isSound_draftResponse _

/-! ## The endpoint -/

theorem Outcome.status_eq_failed {o : Outcome} {verbose : Bool} {body : Text}
    (h : (o.ending verbose body).status = 500) : ∃ failure, o = .failed failure := by
  cases o with
  | unreadable | rejected => exact absurd (show 400 = 500 from h) (by decide)
  | escaped message => exact absurd (show 0 = 500 from h) (by decide)
  | answered request response =>
    have hstatus : (if response.isRefusal then 400 else 200) = 500 := h
    split at hstatus <;> contradiction
  | failed failure => exact ⟨failure, rfl⟩

/-- An outcome is a failure only if the planner failed on some request. -/
theorem Outcome.exists_of_ofBody_eq_failed {planner : Planner} {body : Text} {failure : Failure}
    (h : ofBody planner body = .failed failure) : ∃ r, planner r = .error failure := by
  simp only [ofBody, ofJson, ofRequest] at h
  split at h
  next =>
    split at h
    next request _ =>
      split at h
      next => contradiction
      next failure' hplanner =>
        obtain rfl := Outcome.failed.inj h
        exact ⟨request, hplanner⟩
    next => contradiction
  next fault _ => cases fault <;> contradiction

/-- A planner that always gives a response is never to blame. -/
theorem Endpoint.status_answer_ne_failed {planner : Planner}
    (h : ∀ r, ∃ response, planner r = .ok response) (verbose : Bool) (body : Text) :
    (Endpoint.answer planner verbose body).status ≠ 500 := by
  intro hstatus
  obtain ⟨failure, hfailed⟩ := Outcome.status_eq_failed hstatus
  obtain ⟨r, hr⟩ := Outcome.exists_of_ofBody_eq_failed hfailed
  obtain ⟨response, hresponse⟩ := h r
  exact absurd (hresponse.symm.trans hr) (by simp)

/-- Planning gives a response to every request. The response breaks no rule, every edit and every
selection in it is read back from the wire as it was written, and the endpoint never answers that
planning failed. -/
theorem planning_never_fails :
    (∀ r : Request, ∃ response, r.respond = .ok response ∧ response.check = .ok response ∧
      (∀ e ∈ response.edits, Edit.decode e.encode = .ok e) ∧
      ∀ s ∈ response.selections, Selection.decode s.encode = .ok s) ∧
    ∀ verbose body, (Endpoint.answer defaultPlanner verbose body).status ≠ 500 := by
  constructor
  · intro r
    obtain ⟨response, hrespond, hsound⟩ := r.exists_isSound_respond
    exact ⟨response, hrespond, hsound.survives⟩
  · refine Endpoint.status_answer_ne_failed fun r => ?_
    obtain ⟨response, hrespond, -⟩ := r.exists_isSound_respond
    exact ⟨response, by rw [defaultPlanner, hrespond]; rfl⟩

end CatalogEdit
