import CatalogEdit.Proofs.Plan.Sound
import Mathlib.Algebra.Group.Int.Defs

/-!
# Stock is changed at a named place by a quantity

A plan that changes stock names its place and a quantity; without either the response asks for what
is missing. Only a request about stock with a quantity and no place is answered with a draft, and
the draft names no place.

## Main definitions

* `InventoryChange.IsPlaced` — place and quantity of a change that can be carried out.
* `Draft.IsUnplaced` — the draft of a change of stock without a place.
* `InventoryRequest.missing` — what a request about stock leaves open.

## Main statements

* `InventoryRequest.isPlaced_of_plan` — the plans of a request about stock.
* `draft?_draftResponse` — the draft of a response of any kind.
* `inventory_needs_place_and_quantity` — which requests about stock are planned, and what the
  others are answered with.
-/

namespace CatalogEdit

/-- A change of stock at a named place by a quantity that is a whole number of the wire. -/
structure InventoryChange.IsPlaced (c : InventoryChange) : Prop where
  place : ∃ place, c.location = some place ∧ place ≠ [] ∧ place.IsTrimmed ∧
    ∀ b ∈ place, Byte.isAsciiWord b ∨ b = Byte.minus ∨ Byte.isBlank b
  nonneg : 0 ≤ c.value
  le_max : c.value ≤ 2 ^ 53 - 1

/-- What is drafted of a change of stock whose place is unknown. -/
structure Draft.IsUnplaced (d : Draft) : Prop where
  edit : ∃ e c, d.edit = some e ∧ e.change = .inventory c ∧ c.location = none
  selection : d.selection.isSome
  confidence : d.confidence = some .low
  summaryKey : d.summaryKey = none

/-! ## Requests about stock -/

namespace InventoryRequest

variable {t place : Text} {q : Int}

/-- What a request leaves open, the quantity before the place. -/
def missing (t : Text) : List IssueCode :=
  (if (quantity? t).isSome then [] else [.missingAmount]) ++
    if (Mention.location? t).isSome then [] else [.locationRequired]

/-- What is not planned is answered by asking for what is missing. -/
theorem respond_of_no_plan (h : ∀ p, respond t ≠ .plan p) :
    ∃ c, respond t = .clarification c ∧ c.issues.map Issue.code = missing t := by
  cases hquantity : quantity? t with
  | none =>
    cases hplace : Mention.location? t with
    | none =>
      exact ⟨⟨[amountIssue, placeIssue], none⟩, by simp only [respond, hquantity, hplace],
        by simp [missing, hquantity, hplace, amountIssue, placeIssue]⟩
    | some place =>
      exact ⟨⟨[amountIssue], none⟩, by simp only [respond, hquantity, hplace, Response.ask],
        by simp [missing, hquantity, hplace, amountIssue]⟩
  | some q =>
    cases hplace : Mention.location? t with
    | none =>
      exact ⟨⟨[placeIssue], some (draft t q)⟩, by simp only [respond, hquantity, hplace],
        by simp [missing, hquantity, hplace, placeIssue]⟩
    | some place => exact absurd (by simp only [respond, hquantity, hplace]) (h (plan t q))

theorem respond_eq_plan {p : Plan} :
    respond t = .plan p ↔
      ∃ q, quantity? t = some q ∧ (Mention.location? t).isSome ∧ plan t q = p := by
  cases hquantity : quantity? t <;> cases hplace : Mention.location? t <;>
    simp [respond, hquantity, hplace, Response.ask]

theorem isPlaced_edit (hquantity : quantity? t = some q)
    (hplace : Mention.location? t = some place) :
    (edit t q).scope = .variant ∧ ∃ c, (edit t q).change = .inventory c ∧ c.IsPlaced := by
  obtain ⟨hpos, hmax⟩ := quantity?_bounds hquantity
  refine ⟨rfl, _, rfl, ⟨place, hplace, Mention.location?_ne_nil hplace,
    Mention.isTrimmed_of_location? hplace, fun b hb => ?_⟩, hpos, hmax⟩
  have hbyte := Mention.forall_mem_location? hplace b hb
  simp only [Mention.isLocationByte, Bool.or_eq_true, beq_iff_eq] at hbyte
  rcases hbyte with (hword | hblank) | hminus
  · exact .inl hword
  · exact .inr (.inr hblank)
  · exact .inr (.inl hminus)

theorem isPlaced_of_plan {p : Plan} (h : respond t = .plan p) :
    p.edit.scope = .variant ∧ ∃ c, p.edit.change = .inventory c ∧ c.IsPlaced := by
  obtain ⟨q, hquantity, hsome, rfl⟩ := respond_eq_plan.mp h
  obtain ⟨place, hplace⟩ := Option.isSome_iff_exists.mp hsome
  exact isPlaced_edit hquantity hplace

theorem isUnplaced_draft (h : Mention.location? t = none) : (draft t q).IsUnplaced where
  edit := ⟨_, _, rfl, rfl, h⟩
  selection := rfl
  confidence := rfl
  summaryKey := rfl

end InventoryRequest

/-! ## Requests of each topic -/

/-- What can be planned for a request of a topic. -/
def Topic.operations : Topic → List Operation
  | .price => [.price, .compareAt]
  | .tags => [.tags]
  | .inventory => [.inventory]
  | .status => [.status]

theorem Topic.operation_mem_of_plan {t : Text} {topic : Topic} {p : Plan}
    (h : topic.respond t = .plan p) : p.edit.operation ∈ topic.operations := by
  cases topic with
  | price =>
    simp only [respond, PriceRequest.respond] at h
    split at h
    next =>
      obtain rfl := Response.plan.inj h
      cases hcompareAt : PriceRequest.isCompareAt t <;>
        simp [PriceRequest.plan, hcompareAt, operations, Edit.operation, Change.operation]
    next => contradiction
  | tags =>
    simp only [respond, TagRequest.respond] at h
    split at h
    next => contradiction
    next =>
      obtain rfl := Response.plan.inj h
      exact List.mem_singleton_self _
  | inventory =>
    obtain ⟨q, -, -, rfl⟩ := InventoryRequest.respond_eq_plan.mp h
    exact List.mem_singleton_self _
  | status =>
    simp only [respond, StatusRequest.respond] at h
    split at h
    next =>
      obtain rfl := Response.plan.inj h
      exact List.mem_singleton_self _
    next => contradiction

theorem Topic.eq_inventory {topic : Topic} (h : .inventory ∈ topic.operations) :
    topic = .inventory := by
  cases topic <;> simp [operations] at h ⊢

/-! ## Drafts -/

/-- The draft of a response that asks back. -/
def Response.draft? : Response → Option Draft
  | .clarification c => c.draft
  | _ => none

@[simp] theorem Response.draft?_ask (issue : Issue) : (Response.ask issue).draft? = none := rfl

theorem InventoryRequest.draft?_respond (t : Text) :
    (respond t).draft? =
      if (Mention.location? t).isNone then (quantity? t).map (draft t) else none := by
  cases hquantity : quantity? t <;> cases hplace : Mention.location? t <;>
    simp [respond, hquantity, hplace, Response.draft?, Response.ask]

theorem Topic.draft?_respond (t : Text) (topic : Topic) (h : topic ≠ .inventory) :
    (topic.respond t).draft? = none := by
  cases topic with
  | price => simp only [respond, PriceRequest.respond]; split <;> rfl
  | tags => simp only [respond, TagRequest.respond]; split <;> rfl
  | inventory => exact absurd rfl h
  | status => simp only [respond, StatusRequest.respond]; split <;> rfl

/-- Only a request about stock with a quantity and no place is answered with a draft. -/
theorem draft?_draftResponse_eq_some {t : Text} {d : Draft} :
    (draftResponse t).draft? = some d ↔
      Topic.ofText? t = some .inventory ∧ Mention.location? t = none ∧
        ∃ q, InventoryRequest.quantity? t = some q ∧ InventoryRequest.draft t q = d := by
  cases htopic : Topic.ofText? t with
  | none => simp [draftResponse, htopic]
  | some topic =>
    by_cases hinventory : topic = .inventory
    · subst hinventory
      simp [draftResponse, htopic, Topic.respond, InventoryRequest.draft?_respond]
    · simp [draftResponse, htopic, topic.draft?_respond t hinventory, hinventory]

/-! ## Texts -/

variable {t : Text}

/-- A plan that changes stock comes from a request about stock. -/
theorem isPlaced_of_respondToText {p : Plan} (h : respondToText t = .ok (.plan p))
    (hoperation : p.edit.operation = .inventory) :
    p.edit.scope = .variant ∧ ∃ c, p.edit.change = .inventory c ∧ c.IsPlaced := by
  have hdraft := draftResponse_of_respondToText h
  simp only [draftResponse] at hdraft
  split at hdraft
  next topic _ =>
    have hmem := topic.operation_mem_of_plan hdraft
    rw [hoperation] at hmem
    obtain rfl := Topic.eq_inventory hmem
    exact InventoryRequest.isPlaced_of_plan hdraft
  next => contradiction

theorem draft_eq_some_of_respondToText {c : Clarification} {d : Draft}
    (h : respondToText t = .ok (.clarification c)) :
    c.draft = some d ↔
      Topic.ofText? t.trim = some .inventory ∧ Mention.location? t.trim = none ∧
        ∃ q, InventoryRequest.quantity? t.trim = some q ∧
          InventoryRequest.draft t.trim q = d := by
  have hdraft := draftResponse_of_respondToText h
  rw [← draft?_draftResponse_eq_some, hdraft]
  rfl

/-- A draft is kept along with one question, the one for the place. -/
theorem isUnplaced_of_respondToText {c : Clarification} {d : Draft}
    (h : respondToText t = .ok (.clarification c)) (hd : c.draft = some d) :
    d.IsUnplaced ∧ c.issues.map Issue.code = [.locationRequired] := by
  obtain ⟨htopic, hplace, q, hquantity, rfl⟩ := (draft_eq_some_of_respondToText h).mp hd
  have hdraft := draftResponse_of_respondToText h
  simp only [draftResponse, htopic, Topic.respond, InventoryRequest.respond, hquantity,
    hplace] at hdraft
  obtain rfl := Response.clarification.inj hdraft
  exact ⟨InventoryRequest.isUnplaced_draft hplace, rfl⟩

/-- Stock is only ever changed at a named place by a quantity. A request about stock that names
both is planned, and any other is asked for what it leaves out. A draft is kept exactly if only
the place is missing. -/
theorem inventory_needs_place_and_quantity (t : Text) :
    (∀ p, respondToText t = .ok (.plan p) → p.edit.operation = .inventory →
      p.edit.scope = .variant ∧ ∃ c, p.edit.change = .inventory c ∧ c.IsPlaced) ∧
    ((∃ p, InventoryRequest.respond t = .plan p) ↔
      (InventoryRequest.quantity? t).isSome ∧ (Mention.location? t).isSome) ∧
    ((∀ p, InventoryRequest.respond t ≠ .plan p) →
      ∃ c, InventoryRequest.respond t = .clarification c ∧
        c.issues.map Issue.code = InventoryRequest.missing t) ∧
    ∀ c, respondToText t = .ok (.clarification c) →
      (c.draft.isSome ↔ Topic.ofText? t.trim = some .inventory ∧
        (InventoryRequest.quantity? t.trim).isSome ∧ Mention.location? t.trim = none) ∧
      ∀ d ∈ c.draft, d.IsUnplaced ∧ c.issues.map Issue.code = [.locationRequired] := by
  refine ⟨fun p => isPlaced_of_respondToText, ?_, InventoryRequest.respond_of_no_plan, ?_⟩
  · simp only [InventoryRequest.respond_eq_plan, Option.isSome_iff_exists]
    constructor
    · rintro ⟨p, q, hquantity, hplace, -⟩
      exact ⟨⟨q, hquantity⟩, hplace⟩
    · rintro ⟨⟨q, hquantity⟩, hplace⟩
      exact ⟨_, q, hquantity, hplace, rfl⟩
  · intro c h
    refine ⟨?_, fun d => isUnplaced_of_respondToText h⟩
    simp only [Option.isSome_iff_exists, draft_eq_some_of_respondToText h]
    constructor
    · rintro ⟨d, htopic, hplace, q, hquantity, -⟩
      exact ⟨htopic, ⟨q, hquantity⟩, hplace⟩
    · rintro ⟨htopic, ⟨q, hquantity⟩, hplace⟩
      exact ⟨_, htopic, hplace, q, hquantity, rfl⟩

theorem inventory_needs_place_and_quantity_set :
    (∃ p, respondToText (utf8 "Set stock to 5 at Main") = .ok (.plan p) ∧
      p.edit.scope = .variant ∧ ∃ c, p.edit.change = .inventory c ∧ c.IsPlaced) ∧
    ∃ c d, respondToText (utf8 "Set stock to 5") = .ok (.clarification c) ∧ c.draft = some d ∧
      InventoryRequest.respond (utf8 "Set stock to 5") = .clarification c ∧ d.IsUnplaced ∧
      c.issues.map Issue.code = InventoryRequest.missing (utf8 "Set stock to 5") := by
  constructor
  · have h : respondToText (utf8 "Set stock to 5 at Main") =
        .ok (.plan (InventoryRequest.plan (utf8 "Set stock to 5 at Main") 5)) :=
      Except.toOption_eq_some.mp (by decide +kernel)
    exact ⟨_, h, (inventory_needs_place_and_quantity _).1 _ h rfl⟩
  · let t := utf8 "Set stock to 5"
    let c : Clarification :=
      { issues := [InventoryRequest.placeIssue], draft := some (InventoryRequest.draft t 5) }
    have h : respondToText t = .ok (.clarification c) :=
      Except.toOption_eq_some.mp (by decide +kernel)
    have hrespond : InventoryRequest.respond t = .clarification c := by decide +kernel
    obtain ⟨-, -, hmissing, hdraft⟩ := inventory_needs_place_and_quantity t
    obtain ⟨c', hc', hissues⟩ := hmissing fun p hp => by simp [hrespond] at hp
    obtain rfl := Response.clarification.inj (hrespond.symm.trans hc')
    exact ⟨c, _, h, rfl, hrespond, ((hdraft c h).2 _ rfl).1, hissues⟩

end CatalogEdit
