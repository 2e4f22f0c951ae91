import CatalogEdit.Json.Parser

/-!
# The grammar of JSON texts

Brackets stand around what a container holds, a comma between each two items and a colon behind each
key. A number beyond the range of floating-point numbers is a number too: whether a text is JSON
does not depend on what a reader can represent. A reader reads the tokens of a value and no others,
but at the first number out of range it ends.

## Main definitions

* `Json.Spells` — the tokens of a value, where a number out of range counts as any number.
* `Json.Reader.HasRead` — what a reader has read, by the containers that are still open.
* `Json.Reader.Reads` — the steps of a reader that would take any number in the place of one out of
  range.
* `Json.IsJson`, `Json.firstOutOfRange?` — a text is JSON; the first number out of range in it.

## Main statements

* `Json.Reader.HasRead.take?`, `Json.Reader.HasRead.spells_of_run` — one token is read, and all are.
* `Json.Spells.reads` — wherever a value may begin, its tokens are read.
* `Json.read_eq_ok_iff`, `Json.exists_read_eq_error` — what a text is read as.
-/

namespace CatalogEdit.Json

/-! ## The tokens of a value -/

/-- A key, a colon and the tokens of the value. -/
def entryTokens (e : Text × List Token × Json) : List Token := .string e.1 :: .colon :: e.2.1

/-- The fields of an object are set one after the other. -/
def setEntries (fields : List (Text × Json)) (entries : List (Text × List Token × Json)) :
    List (Text × Json) :=
  entries.foldl (fun fields e => setField e.1 e.2.2 fields) fields

/-- These are the tokens of the value. A number out of range may be the token of any number. -/
inductive Spells : List Token → Json → Prop where
  | scalar (v : Json) : Spells [.scalar v] v
  | outOfRange (literal : Text) {v : Json} (hv : v.kind = .number) : Spells [.outOfRange literal] v
  | string (t : Text) : Spells [.string t] (.string t)
  | array {items : List (List Token × Json)} (hitems : ∀ i ∈ items, Spells i.1 i.2) :
      Spells (.openArray :: ([.comma].intercalate (items.map Prod.fst) ++ [.closeArray]))
        (.array (items.map Prod.snd))
  | object {entries : List (Text × List Token × Json)}
      (hentries : ∀ e ∈ entries, Spells e.2.1 e.2.2) :
      Spells (.openObject :: ([.comma].intercalate (entries.map entryTokens) ++ [.closeObject]))
        (.object (setEntries [] entries))

/-- An object with two entries. -/
theorem Spells.object_pair {tokens tokens' : List Token} {v v' : Json} (k k' : Text)
    (h : Spells tokens v) (h' : Spells tokens' v') :
    Spells (.openObject :: .string k :: .colon :: (tokens ++ .comma :: .string k' :: .colon ::
      (tokens' ++ [.closeObject]))) (.object (setField k' v' [(k, v)])) := by
  have hobject := @Spells.object [(k, tokens, v), (k', tokens', v')] (by simpa using ⟨h, h'⟩)
  simpa [entryTokens, setEntries, setField, List.intercalate_cons_cons] using hobject

/-! ## Numbers out of range -/

def Token.outOfRange? : Token → Option Text
  | .outOfRange literal => some literal
  | _ => none

theorem Token.eq_of_outOfRange?_eq_some {token : Token} {literal : Text}
    (h : token.outOfRange? = some literal) : token = .outOfRange literal := by
  cases token with
  | outOfRange literal' => exact congrArg _ (Option.some.inj h)
  | _ => contradiction

theorem Reader.take?_outOfRange (reader : Reader) (literal : Text) :
    reader.take? (.outOfRange literal) = none := by
  cases reader with
  | done v outer => rcases outer with _ | ⟨_ | _, _⟩ <;> rfl
  | value | firstItem | firstKey | key | colon => rfl

/-! ## What is read is a value -/

/-- What was put after each part stands between the parts, but for the last one. -/
theorem intercalate_append_singleton {α : Type} (sep last : List α) (parts : List (List α)) :
    sep.intercalate (parts ++ [last]) = parts.flatMap (· ++ sep) ++ last := by
  induction parts with
  | nil => simp
  | cons part parts ih =>
    rw [List.cons_append, List.intercalate_cons_of_ne_nil (by simp), ih]
    simp

namespace Reader

/-- The tokens that open these containers and fill them so far. -/
inductive Opens : List Frame → List Token → Prop where
  | nil : Opens [] []
  | array {outer : List Frame} {tokens : List Token} {items : List (List Token × Json)}
      (h : Opens outer tokens) (hitems : ∀ i ∈ items, Spells i.1 i.2) :
      Opens (.array (items.map Prod.snd).reverse :: outer)
        (tokens ++ .openArray :: (items.map Prod.fst).flatMap (· ++ [.comma]))
  | object {outer : List Frame} {tokens : List Token}
      {entries : List (Text × List Token × Json)} {k : Text} (h : Opens outer tokens)
      (hentries : ∀ e ∈ entries, Spells e.2.1 e.2.2) :
      Opens (.object (setEntries [] entries) k :: outer)
        (tokens ++ .openObject ::
          ((entries.map entryTokens).flatMap (· ++ [.comma]) ++ [.string k, .colon]))

/-- The tokens that a reader has read. -/
inductive HasRead : Reader → List Token → Prop where
  | value {outer : List Frame} {tokens : List Token} (h : Opens outer tokens) :
      HasRead (.value outer) tokens
  | firstItem {outer : List Frame} {tokens : List Token} (h : Opens outer tokens) :
      HasRead (.firstItem outer) (tokens ++ [.openArray])
  | firstKey {outer : List Frame} {tokens : List Token} (h : Opens outer tokens) :
      HasRead (.firstKey outer) (tokens ++ [.openObject])
  | key {outer : List Frame} {tokens : List Token} {entries : List (Text × List Token × Json)}
      (h : Opens outer tokens) (hentries : ∀ e ∈ entries, Spells e.2.1 e.2.2) :
      HasRead (.key (setEntries [] entries) outer)
        (tokens ++ .openObject :: (entries.map entryTokens).flatMap (· ++ [.comma]))
  | colon {outer : List Frame} {tokens : List Token} {entries : List (Text × List Token × Json)}
      {k : Text} (h : Opens outer tokens) (hentries : ∀ e ∈ entries, Spells e.2.1 e.2.2) :
      HasRead (.colon (setEntries [] entries) k outer)
        (tokens ++ .openObject ::
          ((entries.map entryTokens).flatMap (· ++ [.comma]) ++ [.string k]))
  | done {outer : List Frame} {tokens tokens' : List Token} {v : Json} (h : Opens outer tokens)
      (hv : Spells tokens' v) : HasRead (.done v outer) (tokens ++ tokens')

section HasRead

variable {reader next : Reader} {token : Token} {tokens tokens' : List Token} {v : Json}
  {outer : List Frame}

theorem hasRead_beginValue? (h : Opens outer tokens) (hnext : beginValue? outer token = some next) :
    HasRead next (tokens ++ [token]) := by
  cases token with
  | openObject =>
    obtain rfl := Option.some.inj hnext
    exact .firstKey h
  | openArray =>
    obtain rfl := Option.some.inj hnext
    exact .firstItem h
  | string t =>
    obtain rfl := Option.some.inj hnext
    exact .done h (.string t)
  | scalar v =>
    obtain rfl := Option.some.inj hnext
    exact .done h (.scalar v)
  | _ => contradiction

theorem hasRead_endValue? (h : Opens outer tokens) (hv : Spells tokens' v)
    (hnext : endValue? v outer token = some next) :
    HasRead next (tokens ++ tokens' ++ [token]) := by
  cases h with
  | nil => contradiction
  | @array outer tokens items h hitems =>
    have hall : ∀ i ∈ items ++ [(tokens', v)], Spells i.1 i.2 :=
      List.forall_mem_append.mpr ⟨hitems, by simpa using hv⟩
    cases token with
    | comma =>
      obtain rfl := Option.some.inj hnext
      have hread := HasRead.value (h.array hall)
      simpa using hread
    | closeArray =>
      obtain rfl := Option.some.inj hnext
      have hread := HasRead.done h (.array hall)
      simpa [intercalate_append_singleton] using hread
    | _ => contradiction
  | @object outer tokens entries k h hentries =>
    have hall : ∀ e ∈ entries ++ [(k, tokens', v)], Spells e.2.1 e.2.2 :=
      List.forall_mem_append.mpr ⟨hentries, by simpa using hv⟩
    cases token with
    | comma =>
      obtain rfl := Option.some.inj hnext
      have hread := HasRead.key h hall
      simpa [setEntries, entryTokens] using hread
    | closeObject =>
      obtain rfl := Option.some.inj hnext
      have hread := HasRead.done h (.object hall)
      simpa [setEntries, entryTokens, intercalate_append_singleton] using hread
    | _ => contradiction

/-- One more token is read. -/
theorem HasRead.take? (h : HasRead reader tokens) (hnext : reader.take? token = some next) :
    HasRead next (tokens ++ [token]) := by
  cases h with
  | value h => exact hasRead_beginValue? h hnext
  | @firstItem outer tokens h =>
    cases token with
    | closeArray =>
      obtain rfl := Option.some.inj hnext
      have hread := HasRead.done h (@Spells.array [] nofun)
      simpa using hread
    | _ => exact hasRead_beginValue? (@Opens.array _ _ [] h nofun) hnext
  | @firstKey outer tokens h =>
    cases token with
    | closeObject =>
      obtain rfl := Option.some.inj hnext
      have hread := HasRead.done h (@Spells.object [] nofun)
      simpa [setEntries] using hread
    | string k =>
      obtain rfl := Option.some.inj hnext
      have hread := @HasRead.colon _ _ [] k h nofun
      simpa [setEntries] using hread
    | _ => contradiction
  | key h hentries =>
    cases token with
    | string k =>
      obtain rfl := Option.some.inj hnext
      have hread := @HasRead.colon _ _ _ k h hentries
      simpa using hread
    | _ => contradiction
  | @colon outer tokens entries k h hentries =>
    cases token with
    | colon =>
      obtain rfl := Option.some.inj hnext
      have hread := HasRead.value (@Opens.object _ _ _ k h hentries)
      simpa using hread
    | _ => contradiction
  | done h hv => exact hasRead_endValue? h hv hnext

/-- The tokens that are read to the end are those of the value, and none of them is a number out of
range. -/
theorem HasRead.spells_of_run {last : Nat} {located : List (Token × Nat)}
    (h : HasRead reader tokens) (hrun : run last reader located = .ok v) :
    Spells (tokens ++ located.map Prod.fst) v ∧
      ∀ token ∈ located.map Prod.fst, token.outOfRange? = none := by
  induction located generalizing reader tokens with
  | nil =>
    cases h with
    | @done outer tokens tokens' v' h hv =>
      cases h with
      | nil =>
        obtain rfl := Except.ok.inj hrun
        exact ⟨by simpa using hv, nofun⟩
      | array | object => contradiction
    | value | firstItem | firstKey | key | colon => contradiction
  | cons entry located ih =>
    obtain ⟨token, position⟩ := entry
    cases hnext : reader.take? token with
    | none => simp [run, hnext] at hrun
    | some next =>
      simp only [run, hnext] at hrun
      obtain ⟨hspells, hnone⟩ := ih (h.take? hnext) hrun
      have htoken : token.outOfRange? = none := by
        cases token with
        | outOfRange literal => exact absurd ((take?_outOfRange _ _).symm.trans hnext) (by simp)
        | _ => rfl
      exact ⟨by simpa using hspells, List.forall_mem_cons.mpr ⟨htoken, hnone⟩⟩

end HasRead

/-! ## Every value is read -/

/-- The token is taken, or it is a number out of range and another number would be taken. -/
inductive Goes (reader : Reader) : Token → Reader → Prop where
  | taken {token : Token} {next : Reader} (h : reader.take? token = some next) :
      Goes reader token next
  | outOfRange (literal : Text) {v : Json} {next : Reader}
      (h : reader.take? (.scalar v) = some next) : Goes reader (.outOfRange literal) next

inductive Reads : Reader → List Token → Reader → Prop where
  | nil (reader : Reader) : Reads reader [] reader
  | cons {reader next last : Reader} {token : Token} {tokens : List Token}
      (h : Goes reader token next) (hrest : Reads next tokens last) :
      Reads reader (token :: tokens) last

section Reads

variable {reader next last : Reader} {token : Token} {tokens tokens' : List Token} {v : Json}
  {outer : List Frame}

theorem Reads.append (h : Reads reader tokens next) (h' : Reads next tokens' last) :
    Reads reader (tokens ++ tokens') last := by
  induction h with
  | nil => exact h'
  | cons hstep _ ih => exact .cons hstep (ih h')

theorem Reads.singleton (h : reader.take? token = some next) : Reads reader [token] next :=
  .cons (.taken h) (.nil next)

/-- The tokens may be read from another reader that takes the first of them alike. -/
theorem Reads.restart {reader' : Reader} (h : Reads reader tokens last)
    (hgoes : ∀ {token next}, Goes reader token next → Goes reader' token next)
    (hne : reader ≠ last) : Reads reader' tokens last := by
  cases h with
  | nil => contradiction
  | cons hstep hrest => exact .cons (hgoes hstep) hrest

/-! ## Containers -/

/-- The first item of an array begins like any other. -/
theorem Goes.firstItem (h : Goes (.value (.array [] :: outer)) token next) :
    Goes (.firstItem outer) token next := by
  cases h with
  | taken h =>
    cases token with
    | closeArray => contradiction
    | _ => exact .taken h
  | outOfRange literal h => exact .outOfRange literal h

/-- The first key of an object is taken like any other. -/
theorem Goes.firstKey (h : Goes (.key [] outer) token next) :
    Goes (.firstKey outer) token next := by
  cases h with
  | taken h =>
    cases token with
    | string k => exact .taken h
    | _ => contradiction
  | outOfRange literal h => contradiction

/-- The items of an array from `i` on, when those before `i` have been read. -/
theorem reads_items {i : List Token × Json} {items : List (List Token × Json)}
    (h : ∀ i' ∈ i :: items, ∀ outer, Reads (.value outer) i'.1 (.done i'.2 outer))
    (reversed : List Json) (outer : List Frame) :
    Reads (.value (.array reversed :: outer))
      ([.comma].intercalate ((i :: items).map Prod.fst) ++ [.closeArray])
      (.done (.array (reversed.reverse ++ (i :: items).map Prod.snd)) outer) := by
  have hitem := h i List.mem_cons_self (.array reversed :: outer)
  induction items generalizing i reversed with
  | nil =>
    have hclose : Reads (.done i.2 (.array reversed :: outer)) [.closeArray]
        (.done (.array (i.2 :: reversed).reverse) outer) := .singleton rfl
    simpa using hitem.append hclose
  | cons j items ih =>
    have hcomma : Reads (.done i.2 (.array reversed :: outer)) [.comma]
        (.value (.array (i.2 :: reversed) :: outer)) := .singleton rfl
    have hrest := ih (fun i' hi' => h i' (List.mem_cons_of_mem _ hi')) (i.2 :: reversed)
      (h j (by simp) _)
    simpa [List.intercalate_cons_cons] using (hitem.append hcomma).append hrest

/-- The entries of an object from `e` on, when those before `e` have been read. -/
theorem reads_entries {e : Text × List Token × Json} {entries : List (Text × List Token × Json)}
    (h : ∀ e' ∈ e :: entries, ∀ outer, Reads (.value outer) e'.2.1 (.done e'.2.2 outer))
    (fields : List (Text × Json)) (outer : List Frame) :
    Reads (.key fields outer)
      ([.comma].intercalate ((e :: entries).map entryTokens) ++ [.closeObject])
      (.done (.object (setEntries fields (e :: entries))) outer) := by
  have hentry : Reads (.key fields outer) (entryTokens e)
      (.done e.2.2 (.object fields e.1 :: outer)) :=
    .cons (.taken rfl) (.cons (.taken rfl) (h e List.mem_cons_self _))
  induction entries generalizing e fields with
  | nil =>
    have hclose : Reads (.done e.2.2 (.object fields e.1 :: outer)) [.closeObject]
        (.done (.object (setField e.1 e.2.2 fields)) outer) := .singleton rfl
    simpa [setEntries] using hentry.append hclose
  | cons f entries ih =>
    have hcomma : Reads (.done e.2.2 (.object fields e.1 :: outer)) [.comma]
        (.key (setField e.1 e.2.2 fields) outer) := .singleton rfl
    have hrest := ih (fun e' he' => h e' (List.mem_cons_of_mem _ he')) (setField e.1 e.2.2 fields)
      (.cons (.taken rfl) (.cons (.taken rfl) (h f (by simp) _)))
    simpa [List.intercalate_cons_cons, setEntries] using (hentry.append hcomma).append hrest

end Reads

end Reader

open Reader

/-- Wherever a value may begin, the tokens of a value are read as that value. -/
theorem Spells.reads {tokens : List Token} {v : Json} (h : Spells tokens v) (outer : List Frame) :
    Reads (.value outer) tokens (.done v outer) := by
  induction h generalizing outer with
  | scalar v => exact .singleton rfl
  | outOfRange literal hv => exact .cons (.outOfRange literal rfl) (.nil _)
  | string t => exact .singleton rfl
  | @array items _ ih =>
    refine .cons (.taken rfl) ?_
    cases items with
    | nil => exact .singleton rfl
    | cons i items => exact (reads_items ih [] outer).restart Goes.firstItem nofun
  | @object entries _ ih =>
    refine .cons (.taken rfl) ?_
    cases entries with
    | nil => exact .singleton rfl
    | cons e entries => exact (reads_entries ih [] outer).restart Goes.firstKey nofun

/-! ## Where reading ends -/

namespace Reader

variable {reader next : Reader} {token : Token} {literal : Text} {v : Json} {last : Nat}
  {located : List (Token × Nat)}

/-- A token with a value is taken. -/
theorem Goes.take?_eq (h : Goes reader token next) (hnone : token.outOfRange? = none) :
    reader.take? token = some next := by
  cases h with
  | taken h => exact h
  | outOfRange literal h => contradiction

/-- A number is taken only where a value may begin. -/
theorem awaitsValue_of_take?_scalar (h : reader.take? (.scalar v) = some next) :
    reader.awaitsValue := by
  cases reader with
  | value outer => rfl
  | firstItem outer => rfl
  | done v outer =>
    rcases outer with _ | ⟨_ | _, _⟩ <;> contradiction
  | firstKey | key | colon => contradiction

/-- A number out of range is never taken; it is refused as such where another number would be
taken. -/
theorem run_cons_outOfRange (h : Goes reader (.outOfRange literal) next) (position : Nat) :
    run last reader ((.outOfRange literal, position) :: located) =
      .error (.outOfRange position literal) := by
  cases h with
  | taken h => exact absurd ((take?_outOfRange _ _).symm.trans h) (by simp)
  | outOfRange literal h =>
    simp [run, take?_outOfRange, refusal, awaitsValue_of_take?_scalar h]

theorem run_eq_ok (h : Reads reader (located.map Prod.fst) (.done v []))
    (hnone : ∀ token ∈ located.map Prod.fst, token.outOfRange? = none) :
    run last reader located = .ok v := by
  induction located generalizing reader with
  | nil =>
    cases h
    rfl
  | cons entry located ih =>
    obtain ⟨token, position⟩ := entry
    cases h with
    | cons hstep hrest =>
      simp only [run, hstep.take?_eq (hnone token List.mem_cons_self)]
      exact ih hrest fun token' h => hnone token' (List.mem_cons_of_mem _ h)

theorem exists_run_eq_error (h : Reads reader (located.map Prod.fst) (.done v []))
    (hsome : (located.map Prod.fst).findSome? Token.outOfRange? = some literal) :
    ∃ position, run last reader located = .error (.outOfRange position literal) := by
  induction located generalizing reader with
  | nil => contradiction
  | cons entry located ih =>
    obtain ⟨token, position⟩ := entry
    rw [List.map_cons, List.findSome?_cons] at hsome
    cases h with
    | cons hstep hrest =>
      cases htoken : token.outOfRange? with
      | none =>
        rw [htoken] at hsome
        simp only [run, hstep.take?_eq htoken]
        exact ih hrest hsome
      | some found =>
        obtain rfl := Token.eq_of_outOfRange?_eq_some htoken
        obtain rfl : found = literal := by simpa [htoken] using hsome
        exact ⟨position, run_cons_outOfRange hstep position⟩

end Reader

/-! ## Texts -/

/-- The text is JSON for the value. -/
def IsJson (t : Text) (v : Json) : Prop := Spells ((Token.ofText t).map Prod.fst) v

def firstOutOfRange? (t : Text) : Option Text :=
  ((Token.ofText t).map Prod.fst).findSome? Token.outOfRange?

variable {t : Text} {v : Json}

/-- Nothing but JSON is read, and all of it unless a number is out of range. -/
theorem read_eq_ok_iff : read t = .ok v ↔ IsJson t v ∧ firstOutOfRange? t = none := by
  rw [firstOutOfRange?, List.findSome?_eq_none_iff]
  constructor
  · intro h
    simpa [IsJson] using (HasRead.value .nil).spells_of_run h
  · rintro ⟨h, hnone⟩
    exact run_eq_ok (h.reads []) hnone

/-- The first number out of range in a text that is JSON is the fault that is found. -/
theorem exists_read_eq_error {literal : Text} (h : IsJson t v)
    (hsome : firstOutOfRange? t = some literal) :
    ∃ position, read t = .error (.outOfRange position literal) :=
  exists_run_eq_error (h.reads []) hsome

end CatalogEdit.Json
