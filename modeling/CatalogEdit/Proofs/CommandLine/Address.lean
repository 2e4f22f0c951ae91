import CatalogEdit.Proofs.Text.Digits
import CatalogEdit.Proofs.Text.Scan
import CatalogEdit.SocketAddress

/-!
# Addresses are read as they are written

An address is a host and a port with a colon between them. Between brackets the host ends at the
first closing bracket; without brackets the last colon stands before the port. Nothing else is an
address, and a host and a port that were written in either form are read back.

## Main definitions

* `SocketAddress.Writes` — the two forms of an address.
* `SocketAddress.IsPort` — one to five digits, and a number that is a port.

## Main statements

* `SocketAddress.splitAtLastColon?_eq_some_iff`, `SocketAddress.splitBracketed?_eq_some_iff` — where
  a text is split.
* `SocketAddress.split_eq_ok_iff` — the host and the text of the port.
* `SocketAddress.parse_reads_written` — which texts are addresses, and which address each of them
  is.
-/

namespace CatalogEdit.SocketAddress

/-! ## The forms of an address -/

/-- The text writes a host and a port. In brackets the host holds no closing bracket; without
brackets the port holds no colon. -/
inductive Writes (host port : Text) : Text → Prop where
  | bracketed (hhost : Byte.closeBracket ∉ host) :
      Writes host port (Byte.openBracket :: (host ++ Byte.closeBracket :: Byte.colon :: port))
  | plain (hhost : host.head? ≠ some Byte.openBracket) (hport : Byte.colon ∉ port) :
      Writes host port (host ++ Byte.colon :: port)

structure IsPort (port : Text) : Prop where
  ne_nil : port ≠ []
  length_le : port.length ≤ 5
  isDigit : ∀ b ∈ port, Byte.isDigit b
  value_le : Text.digitsValue port ≤ 65535

/-- The address of a host and the text of a port. -/
def ofParts (host port : Text) : SocketAddress :=
  ⟨if host.isEmpty then utf8 "0.0.0.0" else host, Text.digitsValue port⟩

variable {t spec host port : Text}

/-! ## Where a text is split -/

theorem splitAtLastColon?_of_notMem (h : Byte.colon ∉ t) : splitAtLastColon? t = none := by
  induction t with
  | nil => rfl
  | cons b rest ih =>
    obtain ⟨hb, hrest⟩ := List.ne_and_not_mem_of_not_mem_cons h
    have hbeq : (b == Byte.colon) = false := beq_eq_false_iff_ne.mpr (Ne.symm hb)
    simp only [splitAtLastColon?, ih hrest, hbeq, Bool.false_eq_true, if_false]

theorem splitAtLastColon?_append (h : Byte.colon ∉ port) :
    splitAtLastColon? (host ++ Byte.colon :: port) = some (host, port) := by
  induction host with
  | nil => simp [splitAtLastColon?, splitAtLastColon?_of_notMem h]
  | cons b host ih => simp only [List.cons_append, splitAtLastColon?, ih]

/-- A text is split at a colon behind which there is no other one. -/
theorem splitAtLastColon?_eq_some_iff :
    splitAtLastColon? t = some (host, port) ↔
      t = host ++ Byte.colon :: port ∧ Byte.colon ∉ port := by
  constructor
  · intro h
    have hmem : Byte.colon ∈ t := by
      apply Decidable.by_contra
      intro hnot
      rw [splitAtLastColon?_of_notMem hnot] at h
      contradiction
    obtain ⟨port', host', hrev, hport'⟩ :=
      List.eq_append_cons_of_mem (List.mem_reverse.mpr hmem)
    have ht : t = host'.reverse ++ Byte.colon :: port'.reverse := by
      have := congrArg List.reverse hrev
      simpa using this
    have hnot : Byte.colon ∉ port'.reverse := by simpa using hport'
    rw [ht, splitAtLastColon?_append hnot] at h
    obtain ⟨rfl, rfl⟩ := Prod.mk.inj (Option.some.inj h)
    exact ⟨ht, hnot⟩
  · rintro ⟨rfl, h⟩
    exact splitAtLastColon?_append h

theorem splitBracketed?_of_notMem (h : Byte.closeBracket ∉ t) : splitBracketed? t = none := by
  simp only [splitBracketed?, Text.takeWhile_bne_of_notMem h, List.drop_length]

theorem splitBracketed?_append (h : Byte.closeBracket ∉ host) (rest : Text) :
    splitBracketed? (host ++ Byte.closeBracket :: rest) =
      match rest with
      | Byte.colon :: port => some (host, port)
      | _ => none := by
  simp only [splitBracketed?, Text.takeWhile_bne_append_cons h, List.drop_left]
  cases rest with
  | nil => rfl
  | cons b rest =>
    by_cases hb : b = Byte.colon
    · subst hb
      rfl
    · simp [hb]

/-- The host in brackets reaches to the first closing bracket, and a colon has to follow. -/
theorem splitBracketed?_eq_some_iff :
    splitBracketed? t = some (host, port) ↔
      t = host ++ Byte.closeBracket :: Byte.colon :: port ∧ Byte.closeBracket ∉ host := by
  constructor
  · intro h
    by_cases hmem : Byte.closeBracket ∈ t
    · obtain ⟨run, rest, rfl, hrun⟩ := List.eq_append_cons_of_mem hmem
      rw [splitBracketed?_append hrun] at h
      split at h
      next =>
        obtain ⟨rfl, rfl⟩ := Prod.mk.inj (Option.some.inj h)
        exact ⟨rfl, hrun⟩
      next => contradiction
    · rw [splitBracketed?_of_notMem hmem] at h
      contradiction
  · rintro ⟨rfl, h⟩
    exact splitBracketed?_append h _

theorem split_openBracket :
    split (Byte.openBracket :: t) = .ok (host, port) ↔ splitBracketed? t = some (host, port) := by
  unfold split
  split
  next hspec =>
    obtain ⟨-, rfl⟩ := List.cons.inj hspec
    cases splitBracketed? t <;> simp
  next hhead => exact absurd rfl (hhead t)

theorem split_of_head?_ne (h : spec.head? ≠ some Byte.openBracket) :
    split spec = .ok (host, port) ↔ splitAtLastColon? spec = some (host, port) := by
  unfold split
  split
  next => simp at h
  next => cases splitAtLastColon? spec <;> simp

/-- A text is split in the way its first byte says. -/
theorem split_eq_ok_iff : split spec = .ok (host, port) ↔ Writes host port spec := by
  have hcolon : (Byte.colon : UInt8) ≠ Byte.openBracket := by decide
  constructor
  · intro h
    by_cases hhead : spec.head? = some Byte.openBracket
    · obtain ⟨t, rfl⟩ := List.head?_eq_some_iff.mp hhead
      obtain ⟨rfl, hhost⟩ := splitBracketed?_eq_some_iff.mp (split_openBracket.mp h)
      exact .bracketed hhost
    · obtain ⟨rfl, hport⟩ := splitAtLastColon?_eq_some_iff.mp ((split_of_head?_ne hhead).mp h)
      refine .plain ?_ hport
      cases host with
      | nil => simp
      | cons b host => exact hhead
  · intro h
    cases h with
    | bracketed hhost =>
      exact split_openBracket.mpr (splitBracketed?_eq_some_iff.mpr ⟨rfl, hhost⟩)
    | plain hhost hport =>
      refine (split_of_head?_ne ?_).mpr (splitAtLastColon?_append hport)
      cases host with
      | nil => simpa using hcolon
      | cons b host => exact hhost

/-! ## Ports -/

theorem isPort_iff : IsPort port ↔ isPortText port ∧ Text.digitsValue port ≤ maxPort := by
  simp only [isPortText, Bool.and_eq_true, Bool.not_eq_true', List.isEmpty_eq_false_iff,
    decide_eq_true_eq, List.all_eq_true]
  constructor
  · intro h
    exact ⟨⟨⟨h.ne_nil, h.length_le⟩, h.isDigit⟩, h.value_le⟩
  · rintro ⟨⟨⟨hne, hlength⟩, hdigits⟩, hvalue⟩
    exact ⟨hne, hlength, hdigits, hvalue⟩

theorem isPort_decimal {n : Nat} (h : n ≤ 65535) : IsPort (Text.decimal n) where
  ne_nil := Text.decimal_ne_nil n
  length_le := (Text.length_decimal_le_iff (by omega)).mpr (by omega)
  isDigit _ := Text.isDigit_of_mem_decimal
  value_le := by rwa [Text.digitsValue_decimal]

theorem colon_notMem_of_isPort (h : IsPort port) : Byte.colon ∉ port := fun hmem =>
  absurd (h.isDigit _ hmem) (by decide)

/-! ## Addresses -/

/-- What is answered about a text that was split into a host and a port. -/
theorem parse_of_split (h : split spec = .ok (host, port)) :
    parse spec =
      if !isPortText port then .error (.invalidPort spec)
      else if maxPort < Text.digitsValue port then .error (.portOutOfRange spec)
      else .ok (ofParts host port) := by
  simp only [parse, h, ofParts, anyHost]

theorem parse_eq_ok_iff {a : SocketAddress} :
    parse spec = .ok a ↔
      ∃ host port, Writes host port spec ∧ IsPort port ∧ a = ofParts host port := by
  simp only [← split_eq_ok_iff, isPort_iff]
  constructor
  · intro h
    cases hsplit : split spec with
    | error fault => simp [parse, hsplit] at h
    | ok parts =>
      obtain ⟨host, port⟩ := parts
      rw [parse_of_split hsplit] at h
      split at h
      next => contradiction
      next hport =>
        split at h
        next => contradiction
        next hvalue =>
          exact ⟨host, port, rfl, ⟨by simpa using hport, Nat.not_lt.mp hvalue⟩,
            (Except.ok.inj h).symm⟩
  · rintro ⟨host, port, hsplit, ⟨hport, hvalue⟩, rfl⟩
    rw [parse_of_split hsplit, hport, if_neg (by simp), if_neg (Nat.not_lt.mpr hvalue)]

/-- A host and a port are read back from either form in which they are written. -/
theorem parse_of_writes {n : Nat} (hhost : host ≠ []) (hn : n ≤ 65535)
    (h : Writes host (Text.decimal n) spec) : parse spec = .ok ⟨host, n⟩ := by
  apply parse_eq_ok_iff.mpr
  refine ⟨host, Text.decimal n, h, isPort_decimal hn, ?_⟩
  simp [ofParts, hhost, Text.digitsValue_decimal]

/-- A text is an address exactly if it writes a host and a port in one of the two forms, and then it
is the address of these; any other text is at fault. A host that is not empty is read back with any
port: without brackets if it does not begin with one, and in brackets if it holds no closing one. -/
theorem parse_reads_written :
    (∀ spec a, parse spec = .ok a ↔
      ∃ host port, Writes host port spec ∧ IsPort port ∧ a = ofParts host port) ∧
    (∀ spec, (∃ fault, parse spec = .error fault) ↔
      ¬ ∃ host port, Writes host port spec ∧ IsPort port) ∧
    ∀ host n, host ≠ [] → n ≤ 65535 →
      (host.head? ≠ some Byte.openBracket →
        parse (host ++ Byte.colon :: Text.decimal n) = .ok ⟨host, n⟩) ∧
      (Byte.closeBracket ∉ host →
        parse (Byte.openBracket ::
          (host ++ Byte.closeBracket :: Byte.colon :: Text.decimal n)) = .ok ⟨host, n⟩) := by
  refine ⟨fun spec a => parse_eq_ok_iff, fun spec => ?_, fun host n hhost hn => ?_⟩
  · constructor
    · rintro ⟨fault, hfault⟩ ⟨host, port, hwrites, hport⟩
      have hok := parse_eq_ok_iff.mpr ⟨host, port, hwrites, hport, rfl⟩
      exact absurd (hok.symm.trans hfault) (by simp)
    · intro hnone
      cases hparse : parse spec with
      | error fault => exact ⟨fault, rfl⟩
      | ok a =>
        obtain ⟨host, port, hwrites, hport, -⟩ := parse_eq_ok_iff.mp hparse
        exact absurd ⟨host, port, hwrites, hport⟩ hnone
  · constructor
    · intro hhead
      exact parse_of_writes hhost hn (.plain hhead (colon_notMem_of_isPort (isPort_decimal hn)))
    · intro hbracket
      exact parse_of_writes hhost hn (.bracketed hbracket)

/-- A host with colons, with and without brackets. -/
theorem parse_reads_written_colons :
    parse (utf8 "::1:65535") = .ok ⟨utf8 "::1", 65535⟩ ∧
      parse (utf8 "[::1]:65535") = .ok ⟨utf8 "::1", 65535⟩ := by
  obtain ⟨hplain, hbracketed⟩ :=
    parse_reads_written.2.2 (utf8 "::1") 65535 (by decide) (by omega)
  exact ⟨hplain (by decide), hbracketed (by decide)⟩

end CatalogEdit.SocketAddress
