import CatalogEdit.Mention.Phrase
import CatalogEdit.Proofs.Text.Search
import CatalogEdit.Proofs.Text.Trim

/-!
# The names of places

The name of a place is never blank, has no blank at its ends and consists of letters, digits,
underscores, hyphens and blanks.

## Main statements

* `Mention.forall_mem_phraseAfter?` — a phrase consists of bytes of its class.
* `Mention.location?_ne_nil`, `Mention.isTrimmed_of_location?`, `Mention.forall_mem_location?` —
  the form of a name.
-/

namespace CatalogEdit.Mention

theorem forall_mem_phraseAfter? {inClass : UInt8 → Bool} {t u : Text}
    (h : phraseAfter? inClass t = some u) : ∀ b ∈ u, inClass b := by
  simp only [phraseAfter?] at h
  split at h
  next => contradiction
  next =>
    split at h
    next =>
      obtain rfl := Option.some.inj h
      exact List.all_eq_true.mp List.all_takeWhile
    next =>
      split at h
      next =>
        obtain rfl := Option.some.inj h
        exact fun b hb => absurd hb List.not_mem_nil
      next => contradiction

theorem forall_mem_placeName? {t u : Text} (h : placeName? t = some u) :
    ∀ b ∈ u, isLocationByte b := by
  simp only [placeName?, Option.or_eq_some_iff] at h
  rcases h with hnamed | ⟨-, hplain⟩
  · split at hnamed
    next =>
      obtain ⟨rest, -, hrest⟩ := Option.bind_eq_some_iff.mp hnamed
      exact forall_mem_phraseAfter? hrest
    next => contradiction
  · exact forall_mem_phraseAfter? hplain

theorem forall_mem_locationAt? {before : Option UInt8} {t u : Text}
    (h : locationAt? before t = some u) : ∀ b ∈ u, isLocationByte b := by
  simp only [locationAt?] at h
  split at h
  next =>
    obtain ⟨rest, -, hrest⟩ := Option.bind_eq_some_iff.mp h
    exact forall_mem_placeName? hrest
  next => contradiction

variable {t place : Text}

theorem location?_ne_nil (h : location? t = some place) : place ≠ [] := by
  obtain ⟨phrase, -, hlabel⟩ := Option.bind_eq_some_iff.mp h
  exact Text.label?_ne_nil hlabel

theorem isTrimmed_of_location? (h : location? t = some place) : place.IsTrimmed := by
  obtain ⟨phrase, -, hlabel⟩ := Option.bind_eq_some_iff.mp h
  exact Text.isTrimmed_of_label? hlabel

theorem forall_mem_location? (h : location? t = some place) : ∀ b ∈ place, isLocationByte b := by
  obtain ⟨phrase, hsearch, hlabel⟩ := Option.bind_eq_some_iff.mp h
  obtain ⟨before, rest, -, hphrase⟩ := Text.exists_of_search hsearch
  exact fun b hb => forall_mem_locationAt? hphrase b (Text.mem_of_mem_label? hlabel hb)

end CatalogEdit.Mention
