import CatalogEdit.Proofs.Text.Digits
import CatalogEdit.Proofs.Text.Scan
import CatalogEdit.Rule.Timestamp

/-!
# Timestamps are written moments

A moment is a date, a time of day and an offset, and every field of it has its own range. It is
written field by field, with a fixed number of digits for each. The texts that are recognised as
timestamps are the written moments and no others. Nothing may stand before or behind a timestamp,
and a time without its offset is none.

## Main definitions

* `Timestamp.Moment` — the fields of a timestamp; `Timestamp.LocalTime` — the same without offset.
* `Timestamp.Moment.text` — how a moment is written.

## Main statements

* `Timestamp.afterField?_eq_some_iff`, `Timestamp.afterClock?_eq_some_iff`,
  `Timestamp.afterLocalTime?_eq_some_iff` — what each part of the reading takes from a text.
* `Timestamp.isTimestamp_iff` — timestamps are written moments.
* `Timestamp.accepts_exactly_moments` — the same, with what may not stand around them.
-/

namespace CatalogEdit.Timestamp

/-! ## Moments -/

/-- A number between two bounds, both included. -/
abbrev Within (low high : Nat) := { n : Nat // low ≤ n ∧ n ≤ high }

structure Date where
  year : Within 0 9999
  month : Within 1 12
  day : Within 1 31

structure Clock where
  hour : Within 0 23
  minute : Within 0 59

/-- The digits behind the decimal point, of any number but at least one. -/
structure Fraction where
  digits : Text
  ne_nil : digits ≠ []
  isDigit : ∀ b ∈ digits, Byte.isDigit b

structure Seconds where
  whole : Within 0 59
  fraction : Option Fraction

structure LocalTime where
  date : Date
  clock : Clock
  seconds : Option Seconds

inductive Offset where
  | universal
  | ahead (clock : Clock)
  | behind (clock : Clock)

structure Moment where
  time : LocalTime
  offset : Offset

/-! ## How a moment is written -/

def Date.text (d : Date) : Text :=
  Text.padded 4 d.year ++ Byte.minus :: (Text.padded 2 d.month ++ Byte.minus :: Text.padded 2 d.day)

/-- The letter between date and time. -/
abbrev timeLetter : UInt8 := 0x54

def Clock.text (c : Clock) : Text := Text.padded 2 c.hour ++ Byte.colon :: Text.padded 2 c.minute

def Fraction.text (f : Fraction) : Text := Byte.dot :: f.digits

def Seconds.text (s : Seconds) : Text :=
  Byte.colon :: (Text.padded 2 s.whole ++ s.fraction.elim [] Fraction.text)

/-- What stands between the date and the offset. -/
def LocalTime.clockText (l : LocalTime) : Text := l.clock.text ++ l.seconds.elim [] Seconds.text

def LocalTime.text (l : LocalTime) : Text := l.date.text ++ timeLetter :: l.clockText

def Offset.text : Offset → Text
  | .universal => utf8 "Z"
  | .ahead clock => Byte.plus :: clock.text
  | .behind clock => Byte.minus :: clock.text

def Moment.text (m : Moment) : Text := m.time.text ++ m.offset.text

@[simp] theorem Date.length_text (d : Date) : d.text.length = 10 := by simp [text]

@[simp] theorem Clock.length_text (c : Clock) : c.text.length = 5 := by simp [text]

variable {t rest : Text}

/-! ## Fields -/

theorem afterByte?_eq_some_iff {b : UInt8} : afterByte? b t = some rest ↔ t = b :: rest := by
  cases t with
  | nil => simp [afterByte?]
  | cons c t =>
    simp only [afterByte?, beq_iff_eq, List.cons.injEq]
    split <;> grind

/-- A field is read if it holds the digits of a number within its bounds. -/
theorem afterField?_eq_some_iff {width low high : Nat} (h : high < 10 ^ width) :
    afterField? width low high t = some rest ↔
      ∃ n : Within low high, t = Text.padded width n ++ rest := by
  simp only [afterField?, Option.ite_none_right_eq_some, Bool.and_eq_true, beq_iff_eq,
    decide_eq_true_eq, List.all_eq_true, Option.some.injEq]
  constructor
  · rintro ⟨⟨⟨⟨hlength, hdigits⟩, hlow⟩, hhigh⟩, rfl⟩
    refine ⟨⟨_, hlow, hhigh⟩, ?_⟩
    have hpadded := Text.padded_digitsValue hdigits
    rw [hlength] at hpadded
    rw [hpadded, List.take_append_drop]
  · rintro ⟨⟨n, hlow, hhigh⟩, rfl⟩
    have htake : (Text.padded width n ++ rest).take width = Text.padded width n :=
      List.take_left' (Text.length_padded width n)
    have hvalue := Text.digitsValue_padded (Nat.lt_of_le_of_lt hhigh h)
    rw [htake, hvalue]
    exact ⟨⟨⟨⟨Text.length_padded width n, fun b => Text.isDigit_of_mem_padded⟩, hlow⟩, hhigh⟩,
      List.drop_left' (Text.length_padded width n)⟩

theorem afterClock?_eq_some_iff :
    afterClock? t = some rest ↔ ∃ c : Clock, t = c.text ++ rest := by
  simp only [afterClock?, Option.bind_eq_some_iff, afterByte?_eq_some_iff,
    afterField?_eq_some_iff (show 23 < 10 ^ 2 by omega),
    afterField?_eq_some_iff (show 59 < 10 ^ 2 by omega)]
  constructor
  · rintro ⟨_, ⟨hour, rfl⟩, _, rfl, minute, rfl⟩
    exact ⟨⟨hour, minute⟩, by simp [Clock.text]⟩
  · rintro ⟨c, rfl⟩
    simp only [Clock.text, List.append_assoc, List.cons_append]
    exact ⟨_, ⟨c.hour, rfl⟩, _, rfl, c.minute, rfl⟩

theorem afterDate?_eq_some_iff : afterDate? t = some rest ↔ ∃ d : Date, t = d.text ++ rest := by
  simp only [afterDate?, Option.bind_eq_some_iff, afterByte?_eq_some_iff,
    afterField?_eq_some_iff (show 9999 < 10 ^ 4 by omega),
    afterField?_eq_some_iff (show 12 < 10 ^ 2 by omega),
    afterField?_eq_some_iff (show 31 < 10 ^ 2 by omega)]
  constructor
  · rintro ⟨_, ⟨year, rfl⟩, _, rfl, _, ⟨month, rfl⟩, _, rfl, day, rfl⟩
    exact ⟨⟨year, month, day⟩, by simp [Date.text]⟩
  · rintro ⟨d, rfl⟩
    simp only [Date.text, List.append_assoc, List.cons_append]
    exact ⟨_, ⟨d.year, rfl⟩, _, rfl, _, ⟨d.month, rfl⟩, _, rfl, d.day, rfl⟩

/-! ## Parts that may be missing -/

/-- The time of day does not go on with this text. -/
def EndsTime (rest : Text) : Prop :=
  ∀ b ∈ rest.head?, Byte.isDigit b = false ∧ b ≠ Byte.dot ∧ b ≠ Byte.colon

theorem EndsTime.ne_cons {b : UInt8} (h : EndsTime rest) (hb : b = Byte.dot ∨ b = Byte.colon)
    (digits : Text) : rest ≠ b :: digits := by
  rintro rfl
  obtain ⟨-, hdot, hcolon⟩ := h b rfl
  exact hb.elim hdot hcolon

theorem afterFraction?_of_ne (h : ∀ digits, t ≠ Byte.dot :: digits) :
    afterFraction? t = some t := by
  unfold afterFraction?
  split
  next digits => exact absurd rfl (h digits)
  next => rfl

theorem afterSeconds?_of_ne (h : ∀ digits, t ≠ Byte.colon :: digits) :
    afterSeconds? t = some t := by
  unfold afterSeconds?
  split
  next digits => exact absurd rfl (h digits)
  next => rfl

/-- Behind the point, all digits are read, and there has to be one. -/
theorem afterFraction?_dot_eq_some_iff {digits : Text} (hrest : EndsTime rest) :
    afterFraction? (Byte.dot :: digits) = some rest ↔
      ∃ f : Fraction, Byte.dot :: digits = f.text ++ rest := by
  have hread : afterFraction? (Byte.dot :: digits) =
      if digits.head?.any Byte.isDigit then some (digits.dropWhile Byte.isDigit) else none := rfl
  rw [hread, Option.ite_none_right_eq_some]
  constructor
  · rintro ⟨hdigit, hdrop⟩
    have hcut : digits.takeWhile Byte.isDigit ++ rest = digits := by
      rw [← Option.some.inj hdrop]
      exact List.takeWhile_append_dropWhile
    have hne : digits.takeWhile Byte.isDigit ≠ [] := by
      cases digits with
      | nil => simp at hdigit
      | cons b digits =>
        have hb : Byte.isDigit b := by simpa using hdigit
        simp [hb]
    exact ⟨⟨_, hne, List.all_eq_true.mp List.all_takeWhile⟩,
      congrArg (Byte.dot :: ·) hcut.symm⟩
  · rintro ⟨⟨run, hne, hrun⟩, heq⟩
    obtain rfl : digits = run ++ rest := (List.cons.inj heq).2
    obtain ⟨b, run, rfl⟩ := List.exists_cons_of_ne_nil hne
    refine ⟨hrun b List.mem_cons_self, congrArg some ?_⟩
    rw [List.dropWhile_append_of_pos hrun]
    cases rest with
    | nil => rfl
    | cons c rest => simp [(hrest c rfl).1]

theorem afterFraction?_eq_some_iff (hrest : EndsTime rest) :
    afterFraction? t = some rest ↔
      ∃ fraction : Option Fraction, t = fraction.elim [] Fraction.text ++ rest := by
  constructor
  · intro h
    by_cases hdot : ∃ digits, t = Byte.dot :: digits
    · obtain ⟨digits, rfl⟩ := hdot
      obtain ⟨f, hf⟩ := (afterFraction?_dot_eq_some_iff hrest).mp h
      exact ⟨some f, hf⟩
    · rw [afterFraction?_of_ne fun digits => not_exists.mp hdot digits] at h
      exact ⟨none, Option.some.inj h⟩
  · rintro ⟨fraction, rfl⟩
    cases fraction with
    | none => exact afterFraction?_of_ne (hrest.ne_cons (.inl rfl))
    | some f => exact (afterFraction?_dot_eq_some_iff hrest).mpr ⟨f, rfl⟩

theorem afterSeconds?_colon_eq_some_iff {digits : Text} (hrest : EndsTime rest) :
    afterSeconds? (Byte.colon :: digits) = some rest ↔
      ∃ s : Seconds, Byte.colon :: digits = s.text ++ rest := by
  have hread : afterSeconds? (Byte.colon :: digits) =
      (afterField? 2 0 59 digits).bind afterFraction? := rfl
  simp only [hread, Option.bind_eq_some_iff, afterFraction?_eq_some_iff hrest,
    afterField?_eq_some_iff (show 59 < 10 ^ 2 by omega)]
  constructor
  · rintro ⟨_, ⟨whole, rfl⟩, fraction, rfl⟩
    exact ⟨⟨whole, fraction⟩, by simp [Seconds.text]⟩
  · rintro ⟨s, heq⟩
    simp only [Seconds.text, List.append_assoc, List.cons_append] at heq
    exact ⟨_, ⟨s.whole, (List.cons.inj heq).2⟩, s.fraction, rfl⟩

theorem afterSeconds?_eq_some_iff (hrest : EndsTime rest) :
    afterSeconds? t = some rest ↔
      ∃ seconds : Option Seconds, t = seconds.elim [] Seconds.text ++ rest := by
  constructor
  · intro h
    by_cases hcolon : ∃ digits, t = Byte.colon :: digits
    · obtain ⟨digits, rfl⟩ := hcolon
      obtain ⟨s, hs⟩ := (afterSeconds?_colon_eq_some_iff hrest).mp h
      exact ⟨some s, hs⟩
    · rw [afterSeconds?_of_ne fun digits => not_exists.mp hcolon digits] at h
      exact ⟨none, Option.some.inj h⟩
  · rintro ⟨seconds, rfl⟩
    cases seconds with
    | none => exact afterSeconds?_of_ne (hrest.ne_cons (.inr rfl))
    | some s => exact (afterSeconds?_colon_eq_some_iff hrest).mpr ⟨s, rfl⟩

/-- The reading of a timestamp up to its offset. -/
def afterLocalTime? (t : Text) : Option Text :=
  (afterDate? t).bind fun t =>
    (afterByte? timeLetter t).bind fun t => (afterClock? t).bind afterSeconds?

theorem afterLocalTime?_eq_some_iff (hrest : EndsTime rest) :
    afterLocalTime? t = some rest ↔ ∃ l : LocalTime, t = l.text ++ rest := by
  simp only [afterLocalTime?, Option.bind_eq_some_iff, afterByte?_eq_some_iff,
    afterDate?_eq_some_iff, afterClock?_eq_some_iff, afterSeconds?_eq_some_iff hrest]
  constructor
  · rintro ⟨_, ⟨date, rfl⟩, _, rfl, _, ⟨clock, rfl⟩, seconds, rfl⟩
    exact ⟨⟨date, clock, seconds⟩, by simp [LocalTime.text, LocalTime.clockText]⟩
  · rintro ⟨l, rfl⟩
    simp only [LocalTime.text, LocalTime.clockText, List.append_assoc, List.cons_append]
    exact ⟨_, ⟨l.date, rfl⟩, _, rfl, _, ⟨l.clock, rfl⟩, l.seconds, rfl⟩

/-! ## The offset -/

theorem isOffset_iff : isOffset t ↔ ∃ o : Offset, t = o.text := by
  have hclock : ∀ rest, (afterClock? rest == some []) = true ↔ ∃ c : Clock, rest = c.text := by
    intro rest
    rw [beq_iff_eq, afterClock?_eq_some_iff]
    simp only [List.append_nil]
  constructor
  · intro h
    unfold isOffset at h
    split at h
    next b rest =>
      split at h
      next hsign =>
        obtain ⟨c, rfl⟩ := (hclock rest).mp h
        simp only [Bool.or_eq_true, beq_iff_eq] at hsign
        rcases hsign with rfl | rfl
        · exact ⟨.ahead c, rfl⟩
        · exact ⟨.behind c, rfl⟩
      next => exact ⟨.universal, beq_iff_eq.mp h⟩
    next => contradiction
  · rintro ⟨o, rfl⟩
    cases o with
    | universal => decide
    | ahead c | behind c => exact (hclock c.text).mpr ⟨c, rfl⟩

theorem endsTime_offset (o : Offset) (rest : Text) : EndsTime (o.text ++ rest) := by
  intro b hb
  cases o with
  | universal | ahead clock | behind clock =>
    obtain rfl := Option.some.inj hb
    decide

/-! ## Whole timestamps -/

theorem isTimestamp_eq_true_iff :
    isTimestamp t ↔ ∃ offset, afterLocalTime? t = some offset ∧ isOffset offset := by
  unfold isTimestamp
  split
  next offset htime =>
    have htime : afterLocalTime? t = some offset := htime
    simp [htime]
  next htime =>
    have htime : afterLocalTime? t = none := htime
    simp [htime]

/-- Timestamps are written moments. -/
theorem isTimestamp_iff : isTimestamp t ↔ ∃ m : Moment, t = m.text := by
  rw [isTimestamp_eq_true_iff]
  constructor
  · rintro ⟨_, htime, hoffset⟩
    obtain ⟨o, rfl⟩ := isOffset_iff.mp hoffset
    have hends := endsTime_offset o []
    rw [List.append_nil] at hends
    obtain ⟨l, rfl⟩ := (afterLocalTime?_eq_some_iff hends).mp htime
    exact ⟨⟨l, o⟩, rfl⟩
  · rintro ⟨⟨l, o⟩, rfl⟩
    have hends := endsTime_offset o []
    rw [List.append_nil] at hends
    exact ⟨o.text, (afterLocalTime?_eq_some_iff hends).mpr ⟨l, rfl⟩, isOffset_iff.mpr ⟨o, rfl⟩⟩

/-! ## What stands around a timestamp -/

theorem letter_notMem_padded (width n : Nat) : timeLetter ∉ Text.padded width n := fun h =>
  absurd (Text.isDigit_of_mem_padded h) (by decide)

theorem letter_notMem_date (d : Date) : timeLetter ∉ d.text := by
  simp only [Date.text, List.mem_append, List.mem_cons, letter_notMem_padded, false_or, or_false]
  decide

theorem letter_notMem_clock (c : Clock) : timeLetter ∉ c.text := by
  simp only [Clock.text, List.mem_append, List.mem_cons, letter_notMem_padded, false_or, or_false]
  decide

theorem letter_notMem_fraction (f : Fraction) : timeLetter ∉ f.text := by
  intro h
  rcases List.mem_cons.mp h with h | h
  · exact absurd h (by decide)
  · exact absurd (f.isDigit _ h) (by decide)

theorem letter_notMem_seconds (s : Seconds) : timeLetter ∉ s.text := by
  obtain ⟨whole, fraction⟩ := s
  have hfraction : timeLetter ∉ fraction.elim [] Fraction.text := by
    cases fraction with
    | none => exact List.not_mem_nil
    | some f => exact letter_notMem_fraction f
  simp only [Seconds.text, List.mem_append, List.mem_cons, letter_notMem_padded, hfraction,
    or_false]
  decide

theorem letter_notMem_offset (o : Offset) : timeLetter ∉ o.text := by
  cases o with
  | universal => decide
  | ahead c | behind c =>
    simp only [Offset.text, List.mem_cons, letter_notMem_clock, or_false]
    decide

/-- The letter between date and time stands nowhere else in a timestamp. -/
theorem letter_notMem_behind (m : Moment) :
    timeLetter ∉ m.time.clockText ++ m.offset.text := by
  obtain ⟨⟨date, clock, seconds⟩, offset⟩ := m
  have hseconds : timeLetter ∉ seconds.elim [] Seconds.text := by
    cases seconds with
    | none => exact List.not_mem_nil
    | some s => exact letter_notMem_seconds s
  simp only [LocalTime.clockText, List.mem_append, letter_notMem_clock, hseconds,
    letter_notMem_offset, or_self, not_false_eq_true]

/-- The first byte of an offset tells how long it is. -/
theorem Offset.length_text (o : Offset) :
    o.text.length = if o.text.head? = some 0x5A then 1 else 6 := by
  cases o with
  | universal => decide
  | ahead c | behind c => exact congrArg (· + 1) c.length_text

theorem Offset.eq_nil_of_append_eq {o o' : Offset} (h : o.text ++ rest = o'.text) : rest = [] := by
  have hhead : o'.text.head? = o.text.head? := by
    rw [← h]
    cases o with
    | universal | ahead c | behind c => rfl
  have hlength : (o.text ++ rest).length = o.text.length := by
    rw [h, o'.length_text, o.length_text, hhead]
  simpa using hlength

/-- Nothing stands behind a timestamp. -/
theorem eq_nil_of_isTimestamp_append {m : Moment} (h : isTimestamp (m.text ++ rest)) :
    rest = [] := by
  obtain ⟨behind, htime, hoffset⟩ := isTimestamp_eq_true_iff.mp h
  have hread : afterLocalTime? (m.text ++ rest) = some (m.offset.text ++ rest) := by
    apply (afterLocalTime?_eq_some_iff (endsTime_offset m.offset rest)).mpr
    exact ⟨m.time, List.append_assoc _ _ _⟩
  obtain rfl := Option.some.inj (hread.symm.trans htime)
  obtain ⟨o, ho⟩ := isOffset_iff.mp hoffset
  exact Offset.eq_nil_of_append_eq ho

/-- Nothing stands before a timestamp. -/
theorem eq_nil_of_append_eq_text {left : Text} {m m' : Moment}
    (h : left ++ (m.text ++ rest) = m'.text) : left = [] := by
  have hsplit : m'.time.date.text ++ timeLetter :: (m'.time.clockText ++ m'.offset.text) =
      (left ++ m.time.date.text) ++
        timeLetter :: (m.time.clockText ++ (m.offset.text ++ rest)) := by
    simpa [Moment.text, LocalTime.text] using h.symm
  have hdate :=
    (List.append_cons_inj_of_notMem (letter_notMem_date _) (letter_notMem_behind _)).mp hsplit
  have hlength := congrArg List.length hdate.1
  simpa using hlength

theorem isTimestamp_time_eq_false (l : LocalTime) : isTimestamp l.text = false := by
  rw [Bool.eq_false_iff]
  intro h
  obtain ⟨behind, htime, hoffset⟩ := isTimestamp_eq_true_iff.mp h
  have hread : afterLocalTime? l.text = some [] := by
    apply (afterLocalTime?_eq_some_iff (by simp [EndsTime])).mpr
    exact ⟨l, (List.append_nil _).symm⟩
  obtain rfl := Option.some.inj (hread.symm.trans htime)
  contradiction

/-- A text is a timestamp exactly if it is a written moment. A timestamp is none any more with
something before or behind it, and no time of day is one without an offset. -/
theorem accepts_exactly_moments :
    (∀ t, isTimestamp t ↔ ∃ m : Moment, t = m.text) ∧
      (∀ left t right, isTimestamp t →
        (isTimestamp (left ++ (t ++ right)) ↔ left = [] ∧ right = [])) ∧
      ∀ l : LocalTime, isTimestamp l.text = false := by
  refine ⟨fun t => isTimestamp_iff, ?_, isTimestamp_time_eq_false⟩
  intro left t right ht
  obtain ⟨m, rfl⟩ := isTimestamp_iff.mp ht
  constructor
  · intro h
    obtain ⟨m', hm'⟩ := isTimestamp_iff.mp h
    obtain rfl := eq_nil_of_append_eq_text hm'
    exact ⟨rfl, eq_nil_of_isTimestamp_append h⟩
  · rintro ⟨rfl, rfl⟩
    simpa using ht

theorem accepts_exactly_moments_leap_day :
    let t := utf8 "2024-02-29T23:59:59.125-08:30"
    (∃ m : Moment, t = m.text) ∧ isTimestamp (t ++ utf8 "\n") = false := by
  intro t
  obtain ⟨hmoments, haround, -⟩ := accepts_exactly_moments
  have ht : isTimestamp t := by decide +kernel
  refine ⟨(hmoments t).mp ht, Bool.eq_false_iff.mpr fun h => ?_⟩
  have hnil := ((haround [] t (utf8 "\n") ht).mp h).2
  exact absurd hnil (by decide)

end CatalogEdit.Timestamp
