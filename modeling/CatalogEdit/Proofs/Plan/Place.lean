import CatalogEdit.Plan.Inventory
import CatalogEdit.Proofs.Mention.Span

/-!
# The quantity of a request and the name of its place

The name of a place may hold digits, so it is taken out of a request before the quantity is read.
What is taken out is the name wherever it stands alone. A name that a character outside ASCII
follows at once does not stand alone, so it stays; and where the same words stand alone elsewhere,
they are lost as well. In all other requests nothing but the name is taken out.

## Main definitions

* `InventoryRequest.StandsOnce` — the name stands alone where it was read, and nowhere else.

## Main statements

* `InventoryRequest.withoutPlace_eq_iff` — when nothing but the name is taken out.
* `InventoryRequest.quantity_outside_place` — from what the quantity is read then.
-/

namespace CatalogEdit.InventoryRequest

open Mention (IsPlaceSpan)

/-- The name of a place that was read between `pre` and `post` stands alone there, and nowhere else
in the text. -/
structure StandsOnce (t pre place post : Text) : Prop where
  after : ∀ b ∈ post.head?, b < 0x80
  once : ∀ front back, Text.StandsBetween place front back t → front = pre

variable {t pre place post : Text}

theorem withoutPlace_eq (h : Mention.location? t = some place) :
    withoutPlace t = Text.removeWord place t := by
  rw [withoutPlace, h]

/-- Nothing but the name of the place is taken out of a request exactly if the name stands alone
there and nowhere else. -/
theorem withoutPlace_eq_iff (h : IsPlaceSpan t pre place post) :
    withoutPlace t = pre ++ Byte.space :: post ↔ StandsOnce t pre place post := by
  have hplace := h.location?_eq_some
  have hremove : Text.removeWord place (pre ++ (place ++ post)) = pre ++ Byte.space :: post ↔ _ :=
    Text.removeWord_eq_iff (Mention.location?_ne_nil hplace)
      (Mention.isTrimmed_of_location? hplace).head h.isApart
  rw [← h.eq, h.standsBetween_iff] at hremove
  rw [withoutPlace_eq hplace, hremove]
  exact ⟨fun ⟨hafter, honce⟩ => ⟨hafter, honce⟩, fun ⟨hafter, honce⟩ => ⟨hafter, honce⟩⟩

/-- A request that names a place names it at some position, and nothing else is taken out of it
exactly if the name stands alone there and nowhere else. Then the quantity is read from the request
with a space for the name: no digit of the name counts, and no other digit is lost. -/
theorem quantity_outside_place (h : Mention.location? t = some place) :
    (∃ pre post, IsPlaceSpan t pre place post) ∧
    ∀ pre post, IsPlaceSpan t pre place post →
      (withoutPlace t = pre ++ Byte.space :: post ↔ StandsOnce t pre place post) ∧
      (StandsOnce t pre place post →
        quantity? t = (Mention.plainNumber? (pre ++ Byte.space :: post)).bind wholeQuantity?) := by
  refine ⟨Mention.exists_isPlaceSpan h, fun pre post hspan => ?_⟩
  have hiff := withoutPlace_eq_iff hspan
  exact ⟨hiff, fun honce => by rw [quantity?, hiff.mpr honce]⟩

theorem quantity_outside_place_depot :
    Mention.location? (utf8 "deduct 3 quantity in location Depot-2") = some (utf8 "Depot-2") ∧
    StandsOnce (utf8 "deduct 3 quantity in location Depot-2")
      (utf8 "deduct 3 quantity in location ") (utf8 "Depot-2") [] ∧
    quantity? (utf8 "deduct 3 quantity in location Depot-2") = some 3 := by
  have hplace :
      Mention.location? (utf8 "deduct 3 quantity in location Depot-2") = some (utf8 "Depot-2") := by
    decide +kernel
  have hspan : IsPlaceSpan (utf8 "deduct 3 quantity in location Depot-2")
      (utf8 "deduct 3 quantity in location ") (utf8 "Depot-2") [] :=
    ⟨by decide +kernel, by decide +kernel, by decide +kernel⟩
  obtain ⟨hiff, hquantity⟩ := (quantity_outside_place hplace).2 _ _ hspan
  have honce := hiff.mp (by decide +kernel)
  exact ⟨hplace, honce, (hquantity honce).trans (by decide +kernel)⟩

/-- A name that a character outside ASCII follows at once stays in the request, and its digits are
read as the quantity. A quantity that is written like the name is taken out with it. -/
theorem quantity_inside_place :
    (IsPlaceSpan (utf8 "set stock at 3ème to 5") (utf8 "set stock at ") (utf8 "3")
        (utf8 "ème to 5") ∧
      quantity? (utf8 "set stock at 3ème to 5") = some 3 ∧
      (Mention.plainNumber? (utf8 "set stock at " ++ Byte.space :: utf8 "ème to 5")).bind
        wholeQuantity? = some 5) ∧
    IsPlaceSpan (utf8 "set stock to 5 at 5") (utf8 "set stock to 5 at ") (utf8 "5") [] ∧
      quantity? (utf8 "set stock to 5 at 5") = none ∧
      (Mention.plainNumber? (utf8 "set stock to 5 at " ++ [Byte.space])).bind wholeQuantity? =
        some 5 := by
  refine ⟨⟨⟨?_, ?_, ?_⟩, ?_, ?_⟩, ⟨?_, ?_, ?_⟩, ?_, ?_⟩ <;> decide +kernel

end CatalogEdit.InventoryRequest
