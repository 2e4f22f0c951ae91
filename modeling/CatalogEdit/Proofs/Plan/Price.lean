import CatalogEdit.Plan.Price

/-!
# Prices follow the words of a request

The words of a request decide in which direction a price is changed: a minus before the number
neither lowers a price that is to be raised nor raises one that is to be lowered. Only where a price
is set does the number keep its sign.

## Main definitions

* `PriceRequest.StepBy` — the number by which a price is raised or lowered.
* `PriceRequest.Asks` — what a request asks for, in the order in which its words count.
* `PriceRequest.askedPlan` — the plan for it.

## Main statements

* `PriceRequest.asks_iff` — intents and amounts are what a request asks for.
* `PriceRequest.price_follows_words` — which requests are planned, and as what.
-/

namespace CatalogEdit

open Lexicon

/-! ## Signs -/

/-- A signed number has the absolute value that was written, and the sign that was wanted unless it
is zero. -/
theorem Binary64.eq_signed_iff {value x : Binary64} {negative : Bool} :
    value = x.signed negative ↔
      value.abs = x.abs ∧ value.negative = (negative && !x.isZero) := by
  obtain ⟨sign, magnitude, hmagnitude⟩ := value
  obtain ⟨sign', magnitude', hmagnitude'⟩ := x
  simp only [signed, abs, isZero, mk.injEq, true_and]
  exact and_comm

/-! ## What is asked for -/

namespace PriceRequest

/-- A price is raised or lowered by a percentage, or else by an amount of money. -/
inductive StepBy (t : Text) : PriceMode → Binary64 → Prop where
  | percent {x : Binary64} (h : Mention.percentage? t = some x) : StepBy t .byPercent x
  | money {x : Binary64} (hpercent : Mention.percentage? t = none)
      (h : Mention.currencyAmount? t = some x) : StepBy t .byAmount x

/-- What a request asks for. The sign of the number that is written counts only if a price is set,
and a price that is lowered by zero is not changed by a negative zero. -/
inductive Asks (t : Text) : PriceIntent → PriceMode → Binary64 → Prop where
  | increase {mode : PriceMode} {x value : Binary64}
      (hword : Text.hasAnyWordStart Price.increase t) (hstep : StepBy t mode x)
      (hsize : value.abs = x.abs) (hsign : value.negative = false) : Asks t .increase mode value
  | decrease {mode : PriceMode} {x value : Binary64}
      (hincrease : ¬ Text.hasAnyWordStart Price.increase t)
      (hword : Text.hasAnyWordStart Price.decrease t) (hstep : StepBy t mode x)
      (hsize : value.abs = x.abs) (hsign : value.negative = !x.isZero) :
      Asks t .decrease mode value
  | set {value : Binary64}
      (hincrease : ¬ Text.hasAnyWordStart Price.increase t)
      (hdecrease : ¬ Text.hasAnyWordStart Price.decrease t)
      (hset : Text.hasAnyWordStart Price.set t) (hprice : Text.hasAnyWordStart Price.price t)
      (h : Mention.currencyAmount? t = some value) : Asks t .set .set value

/-- The direction of a change in a summary key. -/
def direction : PriceIntent → Text
  | .increase => utf8 "Increase"
  | .decrease => utf8 "Decrease"
  | .set => utf8 "Set"

/-- The unit of a change in a summary key. -/
def unit : PriceMode → Text
  | .byPercent => utf8 "Percent"
  | .byAmount => utf8 "Value"
  | .set => []

/-- The plan for what is asked: a word for the compare-at price decides which price is changed and
what the summary speaks of. -/
def askedPlan (t : Text) (intent : PriceIntent) (mode : PriceMode) (value : Binary64) : Plan :=
  let selection := Selection.ofText t Price.commandWords
  if Text.hasAnyWordStart Price.compareAt t then
    { edit := { scope := .product, change := .compareAt { mode, value } }
      selection
      confidence := .medium
      summaryKey := some (utf8 "plan.summary.compareAt" ++ direction intent ++ unit mode) }
  else
    { edit := { scope := .product, change := .price { mode, value } }
      selection
      confidence := .medium
      summaryKey := some (utf8 "plan.summary.price" ++ direction intent ++ unit mode) }

variable {t : Text} {intent : PriceIntent} {mode : PriceMode} {value : Binary64}

/-! ## Intents and amounts -/

theorem signedAmount?_eq_some {negative : Bool} :
    PriceIntent.signedAmount? negative t = some (mode, value) ↔
      ∃ x, StepBy t mode x ∧ value = x.signed negative := by
  simp only [PriceIntent.signedAmount?]
  split
  next percent hpercent =>
    constructor
    · intro h
      obtain ⟨rfl, rfl⟩ := Prod.mk.inj (Option.some.inj h)
      exact ⟨percent, .percent hpercent, rfl⟩
    · rintro ⟨x, hstep, rfl⟩
      cases hstep with
      | percent h =>
        obtain rfl := Option.some.inj (hpercent.symm.trans h)
        rfl
      | money hnone h => exact absurd (hpercent.symm.trans hnone) (Option.some_ne_none _)
  next hnone =>
    constructor
    · intro h
      obtain ⟨amount, hamount, heq⟩ := Option.map_eq_some_iff.mp h
      obtain ⟨rfl, rfl⟩ := Prod.mk.inj heq
      exact ⟨amount, .money hnone hamount, rfl⟩
    · rintro ⟨x, hstep, rfl⟩
      cases hstep with
      | percent h => exact absurd (h.symm.trans hnone) (Option.some_ne_none _)
      | money _ h => rw [h]; rfl

theorem ofText?_eq_increase :
    PriceIntent.ofText? t = some .increase ↔ Text.hasAnyWordStart Price.increase t := by
  grind [PriceIntent.ofText?]

theorem ofText?_eq_decrease :
    PriceIntent.ofText? t = some .decrease ↔
      ¬ Text.hasAnyWordStart Price.increase t ∧ Text.hasAnyWordStart Price.decrease t := by
  grind [PriceIntent.ofText?]

theorem ofText?_eq_set :
    PriceIntent.ofText? t = some .set ↔
      ¬ Text.hasAnyWordStart Price.increase t ∧ ¬ Text.hasAnyWordStart Price.decrease t ∧
        Text.hasAnyWordStart Price.set t ∧ Text.hasAnyWordStart Price.price t := by
  grind [PriceIntent.ofText?]

/-- The intent of a request and its amount are what is asked for. -/
theorem asks_iff :
    Asks t intent mode value ↔
      PriceIntent.ofText? t = some intent ∧ intent.amount? t = some (mode, value) := by
  constructor
  · intro h
    cases h with
    | increase hword hstep hsize hsign =>
      exact ⟨ofText?_eq_increase.mpr hword,
        signedAmount?_eq_some.mpr ⟨_, hstep, Binary64.eq_signed_iff.mpr ⟨hsize, hsign⟩⟩⟩
    | decrease hincrease hword hstep hsize hsign =>
      exact ⟨ofText?_eq_decrease.mpr ⟨hincrease, hword⟩,
        signedAmount?_eq_some.mpr ⟨_, hstep, Binary64.eq_signed_iff.mpr ⟨hsize, hsign⟩⟩⟩
    | set hincrease hdecrease hset hprice h =>
      exact ⟨ofText?_eq_set.mpr ⟨hincrease, hdecrease, hset, hprice⟩,
        by simp only [PriceIntent.amount?, h, Option.map_some]⟩
  · rintro ⟨hintent, hamount⟩
    cases intent with
    | increase =>
      obtain ⟨x, hstep, hvalue⟩ := signedAmount?_eq_some.mp hamount
      obtain ⟨hsize, hsign⟩ := Binary64.eq_signed_iff.mp hvalue
      exact .increase (ofText?_eq_increase.mp hintent) hstep hsize hsign
    | decrease =>
      obtain ⟨x, hstep, hvalue⟩ := signedAmount?_eq_some.mp hamount
      obtain ⟨hsize, hsign⟩ := Binary64.eq_signed_iff.mp hvalue
      obtain ⟨hincrease, hword⟩ := ofText?_eq_decrease.mp hintent
      exact .decrease hincrease hword hstep hsize hsign
    | set =>
      obtain ⟨amount, h, heq⟩ := Option.map_eq_some_iff.mp hamount
      obtain ⟨rfl, rfl⟩ := Prod.mk.inj heq
      obtain ⟨hincrease, hdecrease, hset, hprice⟩ := ofText?_eq_set.mp hintent
      exact .set hincrease hdecrease hset hprice h

/-! ## Plans -/

/-- Direction and unit end the summary key of whatever is asked for. -/
theorem summaryEnding_eq (h : Asks t intent mode value) :
    intent.summaryEnding mode = direction intent ++ unit mode := by
  cases h with
  | increase _ hstep => cases hstep <;> decide
  | decrease _ _ hstep => cases hstep <;> decide
  | set => decide

theorem plan_eq_askedPlan (h : Asks t intent mode value) :
    plan t intent mode value = askedPlan t intent mode value := by
  cases hword : Text.hasAnyWordStart Price.compareAt t <;>
    simp only [plan, askedPlan, isCompareAt, hword, summaryEnding_eq h, Summary.compareAt,
      Summary.price, List.append_assoc, if_true, Bool.false_eq_true, if_false]

theorem respond_of_asks (h : Asks t intent mode value) :
    respond t = .plan (askedPlan t intent mode value) := by
  obtain ⟨hintent, hamount⟩ := asks_iff.mp h
  simp only [respond, hintent, hamount, Option.bind_some, Option.map_some, plan_eq_askedPlan h]

theorem respond_of_not_asks (h : ¬ ∃ intent mode value, Asks t intent mode value) :
    respond t = .ask { code := .missingAmount, messageKey := Message.missingAmount } := by
  simp only [respond]
  split
  next intent mode value hfound =>
    obtain ⟨intent', hintent, hmap⟩ := Option.bind_eq_some_iff.mp hfound
    obtain ⟨amount, hamount, heq⟩ := Option.map_eq_some_iff.mp hmap
    obtain ⟨rfl, rfl⟩ := Prod.mk.inj heq
    exact absurd ⟨intent', mode, value, asks_iff.mpr ⟨hintent, hamount⟩⟩ h
  next => rfl

/-- A request about prices is planned exactly if it asks for something, and the plan is the one for
what is asked. Otherwise the response asks for the amount, and nothing is drafted. -/
theorem price_follows_words (t : Text) :
    (∀ p, respond t = .plan p ↔
      ∃ intent mode value, Asks t intent mode value ∧ p = askedPlan t intent mode value) ∧
    (respond t = .clarification
        { issues := [{ code := .missingAmount, messageKey := utf8 "plan.clarify.missingAmount" }]
          draft := none } ↔
      ¬ ∃ intent mode value, Asks t intent mode value) := by
  by_cases hasks : ∃ intent mode value, Asks t intent mode value
  · obtain ⟨intent, mode, value, h⟩ := id hasks
    rw [respond_of_asks h]
    constructor
    · refine fun p => ⟨fun hp => ⟨intent, mode, value, h, (Response.plan.inj hp).symm⟩, ?_⟩
      rintro ⟨intent', mode', value', h', rfl⟩
      rw [← respond_of_asks h, respond_of_asks h']
    · exact ⟨fun hp => by contradiction, fun hnot => absurd hasks hnot⟩
  · rw [respond_of_not_asks hasks]
    constructor
    · refine fun p => ⟨fun hp => by contradiction, ?_⟩
      rintro ⟨intent, mode, value, h, -⟩
      exact absurd ⟨intent, mode, value, h⟩ hasks
    · exact ⟨fun _ => hasks, fun _ => rfl⟩

/-- The word decides, not the sign that is written. -/
example : Asks (utf8 "raise prices by -5%") .increase .byPercent (Binary64.ofInt 5) :=
  asks_iff.mpr (by decide +kernel)

end PriceRequest

end CatalogEdit
