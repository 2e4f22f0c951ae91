import CatalogEdit.Proofs.Plan.Sound
import CatalogEdit.Proofs.Text.Keyword
import Mathlib.Data.List.Find

/-!
# Requests that name a status

A request is understood if some word of it leads to a topic. The words at whose sight a status is
meant do so as well, all but one: a request to activate items is only understood if it holds another
word of some topic. Otherwise a status that is named is planned.

## Main definitions

* `Lexicon.statusKeywords`, `Lexicon.activation` — the words that name a status, and the one that
  leads to no topic.
* `OnlyActivates` — a request that holds that word and none that leads to a topic.

## Main statements

* `Topic.ofText?_eq_none_iff`, `isUnrecognized_draftResponse_iff` — which requests that name a
  status are not understood, and what is answered then.
* `Topic.ofText?_eq_status` — which requests have the status as their topic.
* `status_is_planned_unless_activated` — the response to a request that names a status.
-/

namespace CatalogEdit

/-! ## The words -/

namespace Lexicon

/-- The words at whose sight a status is meant, whichever it is. -/
def statusKeywords : List Text := statusWords.flatMap (·.2)

def activation : Text := utf8 "activate"

theorem isBlankFree_of_mem_topicWords :
    ∀ row ∈ topicWords, ∀ k ∈ row.2, Text.IsBlankFree k := by
  have h : ∀ row ∈ topicWords, ∀ k ∈ row.2, k ≠ [] ∧ ∀ b ∈ k, Byte.isBlank b = false := by
    decide +kernel
  exact fun row hrow k hk => ⟨(h row hrow k hk).1, (h row hrow k hk).2⟩

theorem isBlankFree_of_mem_statusWords :
    ∀ row ∈ statusWords, ∀ k ∈ row.2, Text.IsBlankFree k := by
  have h : ∀ row ∈ statusWords, ∀ k ∈ row.2, k ≠ [] ∧ ∀ b ∈ k, Byte.isBlank b = false := by
    decide +kernel
  exact fun row hrow k hk => ⟨(h row hrow k hk).1, (h row hrow k hk).2⟩

/-- A word that names a status leads to a topic, or it is the one that does not. -/
theorem eq_activation_or_exists_topic :
    ∀ k ∈ statusKeywords, k = activation ∨ ∃ row ∈ topicWords, k ∈ row.2 := by
  decide +kernel

theorem status_of_activation_mem : ∀ row ∈ statusWords, activation ∈ row.2 → row.1 = .active := by
  decide +kernel

end Lexicon

open Lexicon (topicWords statusWords statusKeywords activation)

/-- The request speaks of activation, and no word that leads to a topic stands in it, not even
inside another word. -/
structure OnlyActivates (t : Text) : Prop where
  activates : Text.hasWordStart activation t
  noTopicWord : ∀ row ∈ topicWords, Text.anyOccurs row.2 t = false

variable {t : Text} {s : Status}

/-! ## Topic and status of a request -/

theorem Topic.ofText?_eq_none :
    Topic.ofText? t = none ↔ ∀ row ∈ topicWords, Text.anyOccurs row.2 t = false := by
  simp [Topic.ofText?]

theorem Topic.ofText?_trim (t : Text) : Topic.ofText? t.trim = Topic.ofText? t := by
  rw [Topic.ofText?, Topic.ofText?]
  refine congrArg _ (List.find?_congr fun row hrow => ?_)
  exact Text.anyOccurs_trim (Lexicon.isBlankFree_of_mem_topicWords row hrow) t

theorem Mention.status?_trim (t : Text) : status? t.trim = status? t := by
  rw [status?, status?]
  refine congrArg _ (List.find?_congr fun row hrow => ?_)
  exact Text.hasAnyWordStart_trim (Lexicon.isBlankFree_of_mem_statusWords row hrow) t

/-- A status is named by some word. -/
theorem Mention.exists_of_status? (h : status? t = some s) :
    ∃ row ∈ statusWords, row.1 = s ∧ ∃ k ∈ row.2, Text.hasWordStart k t := by
  obtain ⟨row, hfind, rfl⟩ := Option.map_eq_some_iff.mp h
  have hrow : Text.hasAnyWordStart row.2 t := by simpa using List.find?_some hfind
  exact ⟨row, List.mem_of_find?_eq_some hfind, rfl, List.any_eq_true.mp hrow⟩

theorem mem_statusKeywords {row : Status × List Text} {k : Text} (hrow : row ∈ statusWords)
    (hk : k ∈ row.2) : k ∈ statusKeywords :=
  List.mem_flatMap.mpr ⟨row, hrow, hk⟩

/-- In a request without a topic, activation is the only status that is named. -/
theorem eq_activation_of_hasWordStart
    (hnone : ∀ row ∈ topicWords, Text.anyOccurs row.2 t = false) {k : Text}
    (hk : k ∈ statusKeywords) (hstart : Text.hasWordStart k t) : k = activation := by
  refine (Lexicon.eq_activation_or_exists_topic k hk).resolve_right ?_
  rintro ⟨row, hrow, hmem⟩
  have hoccurs : Text.anyOccurs row.2 t :=
    List.any_eq_true.mpr ⟨k, hmem, Text.occurs_of_hasWordStart hstart⟩
  rw [hnone row hrow] at hoccurs
  contradiction

theorem OnlyActivates.eq_activation (h : OnlyActivates t) {k : Text} (hk : k ∈ statusKeywords)
    (hstart : Text.hasWordStart k t) : k = activation :=
  eq_activation_of_hasWordStart h.noTopicWord hk hstart

theorem OnlyActivates.status_eq (h : OnlyActivates t) (hs : Mention.status? t = some s) :
    s = .active := by
  obtain ⟨row, hrow, rfl, k, hk, hstart⟩ := Mention.exists_of_status? hs
  obtain rfl := h.eq_activation (mem_statusKeywords hrow hk) hstart
  exact Lexicon.status_of_activation_mem row hrow hk

/-- Of the requests that name a status, those that only speak of activation have no topic. -/
theorem Topic.ofText?_eq_none_iff (hs : Mention.status? t = some s) :
    Topic.ofText? t = none ↔ OnlyActivates t := by
  rw [Topic.ofText?_eq_none]
  refine ⟨fun hnone => ⟨?_, hnone⟩, OnlyActivates.noTopicWord⟩
  obtain ⟨row, hrow, -, k, hk, hstart⟩ := Mention.exists_of_status? hs
  rwa [← eq_activation_of_hasWordStart hnone (mem_statusKeywords hrow hk) hstart]

/-! ## Responses -/

/-- What a topic leaves open is never which topic is meant. -/
theorem Topic.code_ne_unrecognized {topic : Topic} {c : Clarification}
    (h : topic.respond t = .clarification c) : ∀ i ∈ c.issues, i.code ≠ .unrecognized := by
  cases topic with
  | price =>
    simp only [respond, PriceRequest.respond] at h
    split at h
    next => contradiction
    next =>
      obtain rfl := Response.clarification.inj h
      simp
  | tags =>
    simp only [respond, TagRequest.respond] at h
    split at h
    next =>
      obtain rfl := Response.clarification.inj h
      simp
    next => contradiction
  | inventory =>
    simp only [respond, InventoryRequest.respond] at h
    split at h
    next => contradiction
    next =>
      obtain rfl := Response.clarification.inj h
      simp [InventoryRequest.placeIssue]
    next =>
      obtain rfl := Response.clarification.inj h
      simp [InventoryRequest.amountIssue]
    next =>
      obtain rfl := Response.clarification.inj h
      simp [InventoryRequest.placeIssue, InventoryRequest.amountIssue]
  | status =>
    simp only [respond, StatusRequest.respond] at h
    split at h
    next => contradiction
    next =>
      obtain rfl := Response.clarification.inj h
      simp

/-- The response asks what kind of request was meant. -/
def Response.IsUnrecognized (r : Response) : Prop :=
  ∃ c, r = .clarification c ∧ ∃ i ∈ c.issues, i.code = .unrecognized

theorem isUnrecognized_draftResponse_iff :
    (draftResponse t).IsUnrecognized ↔ Topic.ofText? t = none := by
  cases htopic : Topic.ofText? t with
  | none => simp [draftResponse, htopic, Response.IsUnrecognized, Response.ask]
  | some topic =>
    simp only [draftResponse, htopic, reduceCtorEq, iff_false]
    rintro ⟨c, hc, i, hi, hcode⟩
    exact Topic.code_ne_unrecognized hc i hi hcode

/-- The first topic of which a word occurs is the status if no word of another topic does. -/
theorem Topic.ofText?_eq_status
    (hother : ∀ row ∈ topicWords, row.1 ≠ .status → Text.anyOccurs row.2 t = false)
    (hsome : Topic.ofText? t ≠ none) : Topic.ofText? t = some .status := by
  obtain ⟨topic, htopic⟩ := Option.ne_none_iff_exists'.mp hsome
  obtain ⟨row, hfind, rfl⟩ := Option.map_eq_some_iff.mp htopic
  have hoccurs : Text.anyOccurs row.2 t := by simpa using List.find?_some hfind
  rw [htopic]
  refine congrArg some (Decidable.by_contra fun hne => ?_)
  rw [hother row (List.mem_of_find?_eq_some hfind) hne] at hoccurs
  contradiction

/-- A request that names a status is understood unless it only speaks of activation: then no topic
is found, the response asks for one, and the only status that is named is the active one. If no word
of another topic occurs in a request that is understood, the status that it names is planned. -/
theorem status_is_planned_unless_activated (hs : Mention.status? t = some s) :
    (Topic.ofText? t = none ↔ OnlyActivates t) ∧
    (∃ r, respondToText t = .ok r ∧ (r.IsUnrecognized ↔ OnlyActivates t)) ∧
    (OnlyActivates t → s = .active ∧
      ∀ k ∈ statusKeywords, Text.hasWordStart k t → k = activation) ∧
    (¬ OnlyActivates t →
      (∀ row ∈ topicWords, row.1 ≠ .status → Text.anyOccurs row.2 t = false) →
        ∃ p, respondToText t = .ok (.plan p) ∧ p.edit.change = .status s) := by
  have hiff := Topic.ofText?_eq_none_iff hs
  refine ⟨hiff, ⟨_, respondToText_eq t, ?_⟩, fun h => ⟨h.status_eq hs, fun k => h.eq_activation⟩,
    fun hnot hother => ⟨StatusRequest.plan t.trim s, ?_, rfl⟩⟩
  · rw [isUnrecognized_draftResponse_iff, Topic.ofText?_trim, hiff]
  · have htopic := Topic.ofText?_eq_status hother (mt hiff.mp hnot)
    rw [← Topic.ofText?_trim] at htopic
    rw [← Mention.status?_trim] at hs
    simp only [respondToText_eq, draftResponse, htopic, Topic.respond, StatusRequest.respond, hs]

theorem status_is_planned_unless_activated_two_requests :
    (Mention.status? (utf8 "Unpublish winter hats") = some .draft ∧
      ¬ OnlyActivates (utf8 "Unpublish winter hats") ∧
      ∃ p, respondToText (utf8 "Unpublish winter hats") = .ok (.plan p) ∧
        p.edit.change = .status .draft) ∧
    Mention.status? (utf8 "Re-activate gift cards") = some .active ∧
      OnlyActivates (utf8 "Re-activate gift cards") ∧
      ∃ r, respondToText (utf8 "Re-activate gift cards") = .ok r ∧ r.IsUnrecognized := by
  constructor
  · have hs : Mention.status? (utf8 "Unpublish winter hats") = some .draft := by decide +kernel
    obtain ⟨hiff, -, -, hplan⟩ := status_is_planned_unless_activated hs
    have hnot := mt hiff.mpr (by decide +kernel)
    exact ⟨hs, hnot, hplan hnot (by decide +kernel)⟩
  · have hs : Mention.status? (utf8 "Re-activate gift cards") = some .active := by decide +kernel
    obtain ⟨hiff, ⟨r, hr, hunrecognized⟩, -⟩ := status_is_planned_unless_activated hs
    have honly := hiff.mp (by decide +kernel)
    exact ⟨hs, honly, r, hr, hunrecognized.mpr honly⟩

/-- A request to activate items names a status, and no topic is found in it. -/
theorem activation_has_no_topic :
    Mention.status? (utf8 "Activate the summer line") = some .active ∧
    Topic.ofText? (utf8 "Activate the summer line") = none ∧
    respondToText (utf8 "Activate the summer line") =
      .ok (.ask { code := .unrecognized, messageKey := Lexicon.Message.unrecognized }) := by
  refine ⟨by decide +kernel, by decide +kernel, ?_⟩
  exact Except.toOption_eq_some.mp (by decide +kernel)

end CatalogEdit
