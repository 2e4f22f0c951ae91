import CatalogEdit.Proofs.Mention.Case
import CatalogEdit.Proofs.Plan.Sound

/-!
# Case and blanks around a request do not matter

Two requests that are the same once they are trimmed and the case of their letters is folded get the
same response, up to the case of what is quoted from the request: the title that selects items, tags
and the name of a place.

## Main definitions

* `Response.lower` — the response with what it quotes from the request folded.

## Main statements

* `Selection.ofText_lower` — the items a folded request selects.
* `PriceRequest.respond_lower`, `TagRequest.respond_lower`, `InventoryRequest.respond_lower`,
  `StatusRequest.respond_lower` — the response to a folded request of each topic.
* `draftResponse_lower` — the response to a folded request of any kind.
* `planning_ignores_case` — responses to requests that differ in case and in blanks around them.
-/

namespace CatalogEdit

open Text (lower FoldsCase)

/-! ## What a response quotes -/

def Change.lower : Change → Change
  | .tags c => .tags { c with values := c.values.map Text.lower }
  | .inventory c => .inventory { c with location := c.location.map Text.lower }
  | change => change

def Edit.lower (e : Edit) : Edit := { e with change := e.change.lower }

def Selection.lower (s : Selection) : Selection :=
  { s with titleContains := s.titleContains.map Text.lower }

def Plan.lower (p : Plan) : Plan :=
  { p with edit := p.edit.lower, selection := p.selection.lower }

def Draft.lower (d : Draft) : Draft :=
  { d with edit := d.edit.map Edit.lower, selection := d.selection.map Selection.lower }

/-- Fold the titles, tags and places of a response. All else in it stays as it is. -/
def Response.lower : Response → Response
  | .plan p => .plan p.lower
  | .clarification c => .clarification { c with draft := c.draft.map Draft.lower }
  | .refusal r => .refusal r

theorem Response.lower_plan (p : Plan) : (Response.plan p).lower = .plan p.lower := rfl

theorem Response.lower_clarification (c : Clarification) :
    (Response.clarification c).lower =
      .clarification { c with draft := c.draft.map Draft.lower } := rfl

theorem Response.lower_ask (issue : Issue) : (ask issue).lower = ask issue := rfl

/-! ## The residue -/

namespace Residue

theorem foldsCase_numberToken : FoldsCase (Prod.map id id) numberToken := by
  rw [Prod.map_id]
  refine Text.foldsCase_id fun before t => ?_
  simp only [numberToken, Numeral.read?_lower, Text.drop_lower, Text.trimStart_lower,
    Text.length_lower, Text.head?_lower_beq (c := Byte.percent) (by decide)]

theorem foldsCase_currencySymbol : FoldsCase (Prod.map id id) currencySymbol := by
  rw [Prod.map_id]
  refine Text.foldsCase_id fun before t => ?_
  simp only [currencySymbol, Mention.currencySymbolAt?_lower]

theorem ignoresCase_isPunctuation : Byte.IgnoresCase isPunctuation := fun b => by
  simp (disch := decide) [isPunctuation, Byte.lower_eq_iff]

theorem blankPunctuation_lower (t : Text) :
    blankPunctuation (lower t) = lower (blankPunctuation t) := by
  rw [blankPunctuation, blankPunctuation, lower, lower, List.map_map, List.map_map]
  refine List.map_congr_left fun b _ => ?_
  simp only [Function.comp_apply, ignoresCase_isPunctuation b]
  split <;> rfl

theorem strip_lower (t : Text) : strip (lower t) = lower (strip t) := by
  rw [strip, Text.foldsCase_quotedLiteral.blankOut, foldsCase_numberToken.blankOut,
    foldsCase_currencySymbol.blankOut, blankPunctuation_lower, strip]

theorem ofText_lower (t : Text) (commandWords : List Text) :
    ofText (lower t) commandWords = lower (ofText t commandWords) := by
  rw [ofText, strip_lower, Text.removeWords_lower, Text.collapse_lower, ofText]

end Residue

theorem Selection.ofText_lower (t : Text) (commandWords : List Text) :
    Selection.ofText (Text.lower t) commandWords = (Selection.ofText t commandWords).lower := by
  simp only [Selection.ofText, Residue.ofText_lower, Text.length_lower]
  split <;> rfl

/-! ## Requests of each topic -/

theorem PriceIntent.ofText?_lower (t : Text) : ofText? (lower t) = ofText? t := by
  simp only [ofText?, Text.hasAnyWordStart_lower]

theorem PriceIntent.amount?_lower (t : Text) (intent : PriceIntent) :
    intent.amount? (lower t) = intent.amount? t := by
  have hsigned : ∀ negative, signedAmount? negative (lower t) = signedAmount? negative t := by
    intro negative
    simp only [signedAmount?, Mention.percentage?_lower, Mention.currencyAmount?_lower]
  cases intent with
  | increase => exact hsigned false
  | decrease => exact hsigned true
  | set => simp only [amount?, Mention.currencyAmount?_lower]

theorem PriceRequest.isCompareAt_lower (t : Text) : isCompareAt (lower t) = isCompareAt t := by
  simp only [isCompareAt, Text.hasAnyWordStart_lower]

theorem PriceRequest.plan_lower (t : Text) (intent : PriceIntent) (mode : PriceMode)
    (value : Binary64) : plan (lower t) intent mode value = (plan t intent mode value).lower := by
  cases hcompareAt : isCompareAt t <;>
    simp [plan, isCompareAt_lower, hcompareAt, Selection.ofText_lower, Plan.lower, Edit.lower,
      Change.lower]

theorem PriceRequest.respond_lower (t : Text) : respond (lower t) = (respond t).lower := by
  simp only [respond, PriceIntent.ofText?_lower, PriceIntent.amount?_lower]
  split
  next => rw [plan_lower, Response.lower_plan]
  next => rw [Response.lower_ask]

theorem TagMode.ofText_lower (t : Text) : ofText (lower t) = ofText t := by
  simp only [ofText, Text.hasAnyWordStart_lower]

theorem TagRequest.plan_lower (t : Text) (values : List Text) :
    plan (lower t) (values.map Text.lower) = (plan t values).lower := by
  simp only [plan, TagMode.ofText_lower, Selection.ofText_lower, Plan.lower, Edit.lower,
    Change.lower]

theorem TagRequest.respond_lower (t : Text) : respond (lower t) = (respond t).lower := by
  by_cases hempty : (Mention.tags t).isEmpty
  · rw [respond, respond, Mention.tags_lower, List.isEmpty_map, if_pos hempty, if_pos hempty,
      Response.lower_ask]
  · rw [respond, respond, Mention.tags_lower, List.isEmpty_map, if_neg hempty, if_neg hempty,
      plan_lower, Response.lower_plan]

namespace InventoryRequest

/-- The name of the place is folded as well, and it is found where it was. -/
theorem withoutPlace_lower (t : Text) : withoutPlace (lower t) = lower (withoutPlace t) := by
  cases hplace : Mention.location? t with
  | none => simp only [withoutPlace, Mention.location?_lower, hplace, Option.map_none]
  | some place =>
    simp only [withoutPlace, Mention.location?_lower, hplace, Option.map_some]
    rw [Text.removeWord_lower_left, Text.removeWord_lower]

theorem quantity?_lower (t : Text) : quantity? (lower t) = quantity? t := by
  rw [quantity?, withoutPlace_lower, Mention.plainNumber?_lower, quantity?]

theorem mode_lower (t : Text) : InventoryMode.ofText (lower t) = InventoryMode.ofText t := by
  simp only [InventoryMode.ofText, Text.hasAnyWordStart_lower]

theorem edit_lower (t : Text) (q : Int) : edit (lower t) q = (edit t q).lower := by
  simp only [edit, mode_lower, Mention.location?_lower, Edit.lower, Change.lower]

theorem selection_lower (t : Text) : selection (lower t) = (selection t).lower := by
  rw [selection, withoutPlace_lower, Selection.ofText_lower, selection]

theorem plan_lower (t : Text) (q : Int) : plan (lower t) q = (plan t q).lower := by
  simp only [plan, edit_lower, selection_lower, Plan.lower]

theorem draft_lower (t : Text) (q : Int) : draft (lower t) q = (draft t q).lower := by
  simp only [draft, edit_lower, selection_lower, Draft.lower, Option.map_some]

theorem respond_lower (t : Text) : respond (lower t) = (respond t).lower := by
  cases hquantity : quantity? t <;> cases hplace : Mention.location? t <;>
    simp only [respond, quantity?_lower, Mention.location?_lower, hquantity, hplace, plan_lower,
      draft_lower, Option.map_none, Option.map_some, Response.lower_plan, Response.lower_ask,
      Response.lower_clarification]

end InventoryRequest

theorem StatusRequest.plan_lower (t : Text) (status : Status) :
    plan (lower t) status = (plan t status).lower := by
  simp only [plan, Selection.ofText_lower, Plan.lower, Edit.lower, Change.lower]

theorem StatusRequest.respond_lower (t : Text) : respond (lower t) = (respond t).lower := by
  cases hstatus : Mention.status? t with
  | none => simp only [respond, Mention.status?_lower, hstatus, Response.lower_ask]
  | some status =>
    simp only [respond, Mention.status?_lower, hstatus, plan_lower, Response.lower_plan]

/-! ## Requests of any kind -/

theorem Topic.ofText?_lower (t : Text) : ofText? (lower t) = ofText? t := by
  simp only [ofText?, Text.anyOccurs_lower]

theorem Topic.respond_lower (t : Text) (topic : Topic) :
    topic.respond (lower t) = (topic.respond t).lower := by
  cases topic with
  | price => exact PriceRequest.respond_lower t
  | tags => exact TagRequest.respond_lower t
  | inventory => exact InventoryRequest.respond_lower t
  | status => exact StatusRequest.respond_lower t

/-- Folding a request folds what its response quotes. -/
theorem draftResponse_lower (t : Text) : draftResponse (lower t) = (draftResponse t).lower := by
  simp only [draftResponse, Topic.ofText?_lower, Topic.respond_lower]
  split <;> rfl

theorem Request.exists_respond_of_lower_trim {r₁ r₂ : Request}
    (h : lower r₁.text.trim = lower r₂.text.trim) :
    ∃ s₁ s₂, r₁.respond = .ok s₁ ∧ r₂.respond = .ok s₂ ∧ s₁.lower = s₂.lower := by
  refine ⟨_, _, r₁.respond_eq, r₂.respond_eq, ?_⟩
  have hblank : r₁.text.label?.isNone = r₂.text.label?.isNone := by
    simp only [Text.label?, ← Text.isEmpty_lower (Text.trim _), h]
    split <;> rfl
  rw [hblank]
  split
  next => rfl
  next => rw [← draftResponse_lower, h, draftResponse_lower]

/-- Requests that differ only in the case of their letters, in blanks around them and in their
locale get the same response, once the title, the tags and the place quoted in it are folded. In
particular, folding a text folds what is quoted from it. -/
theorem planning_ignores_case :
    (∀ r₁ r₂ : Request, lower r₁.text.trim = lower r₂.text.trim →
      ∃ s₁ s₂, r₁.respond = .ok s₁ ∧ r₂.respond = .ok s₂ ∧ s₁.lower = s₂.lower) ∧
    ∀ t, ∃ s, respondToText t = .ok s ∧ respondToText (lower t) = .ok s.lower := by
  refine ⟨fun _ _ => Request.exists_respond_of_lower_trim, fun t => ?_⟩
  refine ⟨_, respondToText_eq t, ?_⟩
  rw [respondToText_eq, Text.trim_lower, draftResponse_lower]

theorem planning_ignores_case_stock :
    ∃ s₁ s₂ : Response,
      Request.respond { text := utf8 " Set stock to 5 at MAIN", locale := some (utf8 "en") } =
        .ok s₁ ∧
      Request.respond { text := utf8 "SET stock to 5 at Main" } = .ok s₂ ∧ s₁.lower = s₂.lower :=
  planning_ignores_case.1 _ _ (by decide +kernel)

end CatalogEdit
