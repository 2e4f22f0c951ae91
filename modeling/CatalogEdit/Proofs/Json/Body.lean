import CatalogEdit.Proofs.Json.Grammar
import CatalogEdit.Proofs.Json.Quote
import CatalogEdit.Proofs.Wire.Request

/-!
# A written request is read back

A text is read token by token, and blanks between tokens do not matter. So the body in which a
request is written, over several lines and with its strings quoted, is read as the object it was
written from.

## Main definitions

* `Json.Token.Lexes` — a text is made of given tokens and blanks.
* `Request.encode` — the object in which a request is sent.
* `Request.IsSentAs` — a body holds a request.

## Main statements

* `Json.Token.Lexes.isJson` — a text made of the tokens of a value is JSON for that value.
* `Request.isSentAs_render_encode` — every request made of well-formed texts can be sent.
-/

namespace CatalogEdit

namespace Json

/-! ## Texts made of tokens -/

namespace Token

/-- Wherever the text stands, it is made of these tokens and of blanks between them. -/
def Lexes (t : Text) (tokens : List Token) : Prop :=
  ∀ position before,
    (locate position (Text.piecesFrom sized 0 before t)).map Prod.fst = tokens

theorem lexes_nil : Lexes [] [] := fun _ _ => rfl

theorem Lexes.token {t rest : Text} {token : Token} {tokens : List Token}
    (h : at? (t ++ rest) = some (token, t.length)) (hne : t ≠ []) (hrest : Lexes rest tokens) :
    Lexes (t ++ rest) (token :: tokens) := by
  intro position before
  obtain ⟨b, t, rfl⟩ := List.exists_cons_of_ne_nil hne
  rw [List.cons_append] at h ⊢
  rw [Text.piecesFrom_cons, sized, h]
  simpa [locate] using hrest (position + (t.length + 1)) (some Byte.space)

theorem at?_of_isBlank {b : UInt8} (h : isBlank b) (rest : Text) : at? (b :: rest) = none := by
  simp only [isBlank, List.contains_eq_mem, decide_eq_true_eq, List.mem_cons, List.not_mem_nil,
    or_false] at h
  rcases h with rfl | rfl | rfl | rfl <;> rfl

theorem Lexes.blank {b : UInt8} {rest : Text} {tokens : List Token} (hb : isBlank b)
    (hrest : Lexes rest tokens) : Lexes (b :: rest) tokens := by
  intro position before
  rw [Text.piecesFrom_cons, sized, at?_of_isBlank hb]
  simpa [locate, hb] using hrest (position + 1) (some b)

theorem Lexes.blanks {blanks rest : Text} {tokens : List Token} (h : ∀ b ∈ blanks, isBlank b)
    (hrest : Lexes rest tokens) : Lexes (blanks ++ rest) tokens := by
  induction blanks with
  | nil => exact hrest
  | cons b blanks ih =>
    exact .blank (h b List.mem_cons_self) (ih fun c hc => h c (List.mem_cons_of_mem _ hc))

theorem at?_of_mark {b : UInt8} {token : Token} (h : marks.lookup b = some token) (rest : Text) :
    at? (b :: rest) = some (token, 1) := by
  have hne : b ≠ Byte.quote := by
    rintro rfl
    contradiction
  rw [at?.eq_3 b rest hne, h]

theorem Lexes.mark {s : String} {b : UInt8} {rest : Text} {token : Token} {tokens : List Token}
    (hs : utf8 s = [b]) (h : marks.lookup b = some token) (hrest : Lexes rest tokens) :
    Lexes (utf8 s ++ rest) (token :: tokens) := by
  rw [hs]
  exact .token (at?_of_mark h rest) (List.cons_ne_nil _ _) hrest

theorem Lexes.quote {t rest : Text} {tokens : List Token} (h : Utf8.isWellFormed t)
    (hrest : Lexes rest tokens) : Lexes (Json.quote t ++ rest) (.string t :: tokens) :=
  .token (at?_quote h rest) (by simp [Json.quote]) hrest

theorem newline_isBlank (level : Nat) : ∀ b ∈ newline level, isBlank b := by
  intro b hb
  rcases List.mem_append.mp hb with hb | hb
  · obtain rfl : b = 0x0A := by simpa [show utf8 "\n" = [0x0A] from rfl] using hb
    rfl
  · obtain rfl := List.eq_of_mem_replicate hb
    rfl

/-- A field whose value is a string. -/
theorem Lexes.entry {key t rest : Text} {tokens : List Token} (hkey : Utf8.isWellFormed key)
    (ht : Utf8.isWellFormed t) (hrest : Lexes rest tokens) :
    Lexes (Json.quote key ++ utf8 ": " ++ Json.quote t ++ rest)
      (.string key :: .colon :: .string t :: tokens) := by
  rw [List.append_assoc, List.append_assoc]
  have hvalue : Lexes (utf8 ": " ++ (Json.quote t ++ rest)) (.colon :: .string t :: tokens) :=
    .mark (s := ":") rfl rfl (.blank rfl (.quote ht hrest))
  exact .quote hkey hvalue

theorem Lexes.map_fst_ofText {t : Text} {tokens : List Token} (h : Lexes t tokens) :
    (ofText t).map Prod.fst = tokens := h 1 none

theorem Lexes.isJson {t : Text} {tokens : List Token} {v : Json} (h : Lexes t tokens)
    (hv : Spells tokens v) : IsJson t v := by
  rwa [IsJson, h.map_fst_ofText]

theorem Lexes.firstOutOfRange?_eq {t : Text} {tokens : List Token} (h : Lexes t tokens) :
    firstOutOfRange? t = tokens.findSome? outOfRange? := by
  rw [firstOutOfRange?, h.map_fst_ofText]

end Token

end Json

/-! ## Bodies that hold a request -/

namespace Request

open Json

/-- The object in which a request is sent. -/
def encode (r : Request) : Json :=
  .object (fieldOfOption "locale" .string r.locale ++ [(utf8 "text", .string r.text)])

theorem isWrittenBy_encode (r : Request) : r.IsWrittenBy r.encode := by
  refine ⟨_, rfl, ?_, ?_⟩ <;> cases r.locale <;> simp [List.lookup_append]

/-- The tokens of the object in which a request is sent. -/
def tokens (r : Request) : List Token :=
  .openObject ::
    ((r.locale.map fun l => [.string (utf8 "locale"), .colon, .string l, .comma]).getD [] ++
      [.string (utf8 "text"), .colon, .string r.text, .closeObject])

theorem lexes_render_encode {r : Request} (htext : Utf8.isWellFormed r.text)
    (hlocale : ∀ l ∈ r.locale, Utf8.isWellFormed l) :
    Token.Lexes (render 0 r.encode) r.tokens := by
  have hclose : Token.Lexes (newline 0 ++ utf8 "\x7d") [.closeObject] :=
    .blanks (Token.newline_isBlank 0) (.mark (s := "\x7d") rfl rfl Token.lexes_nil)
  have hentry : Token.Lexes
      (quote (utf8 "text") ++ utf8 ": " ++ quote r.text ++ (newline 0 ++ utf8 "\x7d"))
      [.string (utf8 "text"), .colon, .string r.text, .closeObject] :=
    .entry (by decide +kernel) htext hclose
  obtain ⟨text, locale⟩ := r
  cases locale with
  | none =>
    have hbody := Token.Lexes.mark (s := "\x7b") rfl rfl
      (.blanks (Token.newline_isBlank 1) hentry)
    simpa [encode, fieldOfOption, render, renderFields, tokens] using hbody
  | some l =>
    have hkey : Utf8.isWellFormed (utf8 "locale") := by decide +kernel
    have hbody := Token.Lexes.mark (s := "\x7b") rfl rfl
      (.blanks (Token.newline_isBlank 1)
        (.entry hkey (hlocale l rfl)
          (.mark (s := ",") rfl rfl (.blanks (Token.newline_isBlank 1) hentry))))
    simpa [encode, fieldOfOption, render, renderFields, tokens] using hbody

theorem spells_tokens (r : Request) : Spells r.tokens r.encode := by
  obtain ⟨text, locale⟩ := r
  have htext : Spells [.string text] (.string text) := .string text
  cases locale with
  | none =>
    have hobject := @Spells.object [(utf8 "text", _, _)] (by simpa using htext)
    simpa [tokens, encode, fieldOfOption, entryTokens, setEntries, setField] using hobject
  | some l =>
    have hobject := Spells.object_pair (utf8 "locale") (utf8 "text") (.string l) htext
    simpa [tokens, encode, fieldOfOption, setField, utf8_inj] using hobject

theorem findSome?_outOfRange?_tokens (r : Request) :
    r.tokens.findSome? Token.outOfRange? = none := by
  obtain ⟨text, locale⟩ := r
  cases locale <;> rfl

theorem parse_render_encode {r : Request} (htext : Utf8.isWellFormed r.text)
    (hlocale : ∀ l ∈ r.locale, Utf8.isWellFormed l) :
    parse (render 0 r.encode) = .ok r.encode := by
  have hlexes := lexes_render_encode htext hlocale
  have hnone : firstOutOfRange? (render 0 r.encode) = none := by
    rw [hlexes.firstOutOfRange?_eq, r.findSome?_outOfRange?_tokens]
  exact Except.mapError_eq_ok.mpr (read_eq_ok_iff.mpr ⟨hlexes.isJson r.spells_tokens, hnone⟩)

/-- The body is a JSON object with the text and the locale of the request. -/
def IsSentAs (r : Request) (body : Text) : Prop := ∃ j, parse body = .ok j ∧ r.IsWrittenBy j

/-- Every request made of well-formed texts can be sent. -/
theorem isSentAs_render_encode {r : Request} (htext : Utf8.isWellFormed r.text)
    (hlocale : ∀ l ∈ r.locale, Utf8.isWellFormed l) : r.IsSentAs (render 0 r.encode) :=
  ⟨_, parse_render_encode htext hlocale, r.isWrittenBy_encode⟩

end Request

end CatalogEdit
