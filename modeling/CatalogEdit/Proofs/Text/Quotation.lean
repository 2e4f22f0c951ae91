import CatalogEdit.Proofs.Text.Scan
import CatalogEdit.Text.Quoted

/-!
# Texts with quotations

A text in which every quote mark belongs to a literal in double quotes: what stands between two
double quotes may hold any byte but a double quote, and no quote mark of either kind stands outside.
A scan for literals finds exactly these and leaves everything else.

## Main definitions

* `Text.IsPlain` — a text without a quote mark.
* `Quotation`, `QuotedText` — a literal with the gap behind it, and a text made of such.

## Main statements

* `QuotedText.occurrences_text_append` — the literals that are found, whatever follows.
* `QuotedText.blankOut_text` — the gaps, joined by a space for every literal.
* `Text.blankOut_quotedLiteral_of_isPlain` — nothing is found where there is no quote mark.
-/

namespace CatalogEdit

/-- There is no quote mark of either kind. -/
def Text.IsPlain (t : Text) : Prop := ∀ b ∈ t, isQuoteMark b = false

instance : DecidablePred Text.IsPlain := List.decidableBAll fun b => Text.isQuoteMark b = false

/-- A literal in double quotes, and what follows it up to the next one. -/
structure Quotation where
  literal : Text
  gap : Text
  literal_ne_nil : literal ≠ []
  quote_notMem : Byte.quote ∉ literal
  isPlain_gap : gap.IsPlain

/-- A text whose quote marks are those around its literals. -/
structure QuotedText where
  lead : Text
  quotations : List Quotation
  isPlain_lead : lead.IsPlain

def Quotation.text (q : Quotation) : Text :=
  Byte.quote :: (q.literal ++ Byte.quote :: q.gap)

namespace QuotedText

def text (q : QuotedText) : Text := q.lead ++ q.quotations.flatMap Quotation.text

/-- What stands between the quote marks, from left to right. -/
def literals (q : QuotedText) : List Text := q.quotations.map Quotation.literal

/-- What stands before, between and behind the literals. -/
def gaps (q : QuotedText) : List Text := q.lead :: q.quotations.map Quotation.gap

end QuotedText

/-! ## Reading literals -/

namespace Text

variable {gap rest : Text} {before : Option UInt8}

theorem quotedLiteral_cons_of_isQuoteMark_eq_false {b : UInt8} (h : isQuoteMark b = false) :
    quotedLiteral before (b :: rest) = none := by
  simp [quotedLiteral, h]

theorem quotedLiteral_before (before before' : Option UInt8) (t : Text) :
    quotedLiteral before t = quotedLiteral before' t := by
  cases t <;> rfl

/-- No literal begins where there is no quote mark. -/
theorem isGap_quotedLiteral_of_isPlain (h : gap.IsPlain) (before : Option UInt8) (rest : Text) :
    IsGap quotedLiteral before gap rest := by
  rintro x y rfl hne a width
  cases y with
  | nil => contradiction
  | cons b y =>
    rw [List.cons_append, quotedLiteral_cons_of_isQuoteMark_eq_false (h b (by simp))]
    exact Option.some_ne_none _ |>.symm

theorem quotedBody?_append {mark : UInt8} {body : Text} (hne : body ≠ []) (hmark : mark ∉ body)
    (rest : Text) : quotedBody? mark (body ++ mark :: rest) = some body := by
  simp [quotedBody?, takeWhile_bne_append_cons hmark, hne]

/-- What is read as the body of a literal stands before the next mark. -/
theorem exists_of_quotedBody? {mark : UInt8} {body t : Text} (h : quotedBody? mark t = some body) :
    ∃ rest, t = body ++ mark :: rest := by
  by_cases hmem : mark ∈ t
  · obtain ⟨front, rest, rfl, hfront⟩ := List.eq_append_cons_of_mem hmem
    simp only [quotedBody?, takeWhile_bne_append_cons hfront] at h
    split at h
    next => contradiction
    next => exact ⟨rest, by rw [Option.some.inj h]⟩
  · simp [quotedBody?, takeWhile_bne_of_notMem hmem] at h

end Text

open Text (quotedLiteral)

/-! ## The scan of a text with quotations -/

theorem Quotation.quotedLiteral_text (q : Quotation) (before : Option UInt8) (rest : Text) :
    quotedLiteral before (q.text ++ rest) = some (q.literal, q.literal.length + 2) := by
  have hbody := Text.quotedBody?_append q.literal_ne_nil q.quote_notMem (q.gap ++ rest)
  have hmark : Text.isQuoteMark Byte.quote = true := rfl
  simp [text, quotedLiteral, hmark, hbody]

/-- The scan finds the literals of a row of quotations and keeps their gaps, then it goes on. -/
theorem Quotation.piecesFrom_flatMap_text_append (quotations : List Quotation)
    (before : Option UInt8) (rest : Text) :
    Text.piecesFrom quotedLiteral 0 before (quotations.flatMap text ++ rest) =
      (quotations.flatMap fun q => .found q.literal :: q.gap.map .byte) ++
        Text.pieces quotedLiteral rest := by
  induction quotations generalizing before with
  | nil => exact Text.piecesFrom_before Text.quotedLiteral_before 0 before none rest
  | cons q quotations ih =>
    have hdrop : (q.text ++ (quotations.flatMap text ++ rest)).drop (q.literal.length + 2) =
        q.gap ++ (quotations.flatMap text ++ rest) := by
      simp [text]
    rw [List.flatMap_cons, List.flatMap_cons, List.append_assoc,
      Text.piecesFrom_of_eq_some (by simp [text]) (q.quotedLiteral_text before _), hdrop,
      Text.piecesFrom_append_of_isGap (Text.isGap_quotedLiteral_of_isPlain q.isPlain_gap _ _), ih]
    simp only [List.cons_append, List.append_assoc]

namespace QuotedText

variable (q : QuotedText)

theorem pieces_text_append (rest : Text) :
    Text.pieces quotedLiteral (q.text ++ rest) =
      q.lead.map .byte ++ (q.quotations.flatMap fun q => .found q.literal :: q.gap.map .byte) ++
        Text.pieces quotedLiteral rest := by
  rw [Text.pieces, text, List.append_assoc,
    Text.piecesFrom_append_of_isGap (Text.isGap_quotedLiteral_of_isPlain q.isPlain_lead _ _),
    Quotation.piecesFrom_flatMap_text_append, List.append_assoc]

theorem pieces_text : Text.pieces quotedLiteral q.text =
    q.lead.map .byte ++ q.quotations.flatMap fun q => .found q.literal :: q.gap.map .byte := by
  have hnil : Text.pieces quotedLiteral [] = [] := rfl
  simpa only [List.append_nil, hnil] using q.pieces_text_append []

/-- What is found are the literals, and what is found behind them. -/
theorem occurrences_text_append (rest : Text) :
    Text.occurrences quotedLiteral (q.text ++ rest) =
      q.literals ++ Text.occurrences quotedLiteral rest := by
  rw [Text.occurrences, pieces_text_append, List.filterMap_append, List.filterMap_append,
    List.filterMap_map, literals]
  congr 1
  induction q.quotations with
  | nil => simp
  | cons q quotations ih => simpa [Function.comp_def] using ih

/-- What is found are the literals. -/
theorem occurrences_text : Text.occurrences quotedLiteral q.text = q.literals := by
  have hnil : Text.occurrences quotedLiteral [] = [] := rfl
  simpa only [List.append_nil, hnil] using q.occurrences_text_append []

/-- A space stands for every literal. -/
theorem blankOut_text :
    Text.blankOut quotedLiteral q.text = [Byte.space].intercalate q.gaps := by
  rw [Text.blankOut, pieces_text, List.map_append, List.map_map, gaps]
  generalize q.lead = lead
  induction q.quotations generalizing lead with
  | nil => simp [Function.comp_def]
  | cons q quotations ih =>
    rw [List.map_cons, List.intercalate_cons_cons, ← ih]
    simp [Function.comp_def]

theorem isPlain_of_mem_gaps : ∀ gap ∈ q.gaps, gap.IsPlain := by
  rw [gaps, List.forall_mem_cons, List.forall_mem_map]
  exact ⟨q.isPlain_lead, fun q _ => q.isPlain_gap⟩

end QuotedText

/-! ## Texts without quotations -/

namespace Text

theorem isPlain_intercalate {parts : List Text} (h : ∀ part ∈ parts, part.IsPlain) :
    IsPlain ([Byte.space].intercalate parts) := by
  induction parts with
  | nil => exact fun b hb => absurd hb List.not_mem_nil
  | cons part parts ih =>
    obtain ⟨hpart, hparts⟩ := List.forall_mem_cons.mp h
    cases parts with
    | nil => simpa using hpart
    | cons next parts =>
      rw [List.intercalate_cons_cons]
      intro b hb
      rcases List.mem_append.mp hb with hb | hb
      · rcases List.mem_append.mp hb with hb | hb
        · exact hpart b hb
        · obtain rfl := List.mem_singleton.mp hb
          rfl
      · exact ih hparts b hb

variable {t : Text} (h : t.IsPlain)
include h

/-- Nothing is found in a text without quote marks, and what follows it is read by itself. -/
theorem occurrences_quotedLiteral_append_of_isPlain (rest : Text) :
    occurrences quotedLiteral (t ++ rest) = occurrences quotedLiteral rest := by
  have hscan := QuotedText.occurrences_text_append ⟨t, [], h⟩ rest
  simpa [QuotedText.text, QuotedText.literals] using hscan

theorem occurrences_quotedLiteral_of_isPlain : occurrences quotedLiteral t = [] := by
  have hscan := QuotedText.occurrences_text ⟨t, [], h⟩
  simpa [QuotedText.text, QuotedText.literals] using hscan

theorem blankOut_quotedLiteral_of_isPlain : blankOut quotedLiteral t = t := by
  have hscan := QuotedText.blankOut_text ⟨t, [], h⟩
  simpa [QuotedText.text, QuotedText.gaps] using hscan

end Text

end CatalogEdit
