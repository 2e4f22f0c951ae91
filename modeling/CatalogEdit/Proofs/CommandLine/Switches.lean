import CatalogEdit.CommandLine

/-!
# Argument lists made of known options

An argument list without help, without an unknown argument and without an option that lacks its
value is a sequence of options, some of which take a value. Reading it applies the options one after
the other. What the settings hold in the end is the last value given to an option, and whether a
flag stands anywhere.

## Main definitions

* `Switch` — an option, with its value if it takes one.
* `Switch.arguments` — how an option is written.
* `Switch.apply` — what an option does to the settings.

## Main statements

* `Settings.readFrom_switches_append` — reading applies the options in order, whatever follows.
* `Settings.text_applyAll`, `Settings.locale_applyAll`, `Settings.listen_applyAll`,
  `Settings.readStdin_applyAll`, `Settings.serve_applyAll`, `Settings.verbose_applyAll` — the
  settings after all options.
-/

namespace CatalogEdit

/-- An option as it is given, with its value if it takes one. -/
inductive Switch where
  | text (value : Text)
  | locale (value : Text)
  | listen (value : Text)
  | stdin
  | serve
  | verbose
deriving DecidableEq, Repr

namespace Switch

/-- How an option is written. The value may be anything, the name of an option as well. -/
def arguments : Switch → List Text
  | .text value => [utf8 "--text", value]
  | .locale value => [utf8 "--locale", value]
  | .listen value => [utf8 "--listen", value]
  | .stdin => [utf8 "--stdin"]
  | .serve => [utf8 "--serve"]
  | .verbose => [utf8 "--verbose"]

/-- What an option does to the settings. -/
def apply (s : Settings) : Switch → Settings
  | .text value => { s with text := some value }
  | .locale value => { s with locale := some value }
  | .listen value => { s with listen := value }
  | .stdin => { s with readStdin := true }
  | .serve => { s with serve := true }
  | .verbose => { s with verbose := true }

def text? : Switch → Option Text
  | .text value => some value
  | _ => none

def locale? : Switch → Option Text
  | .locale value => some value
  | _ => none

def listen? : Switch → Option Text
  | .listen value => some value
  | _ => none

end Switch

namespace Settings

/-! ## Reading options -/

/-- An option is applied, whatever comes after it. -/
theorem readFrom_arguments (s : Settings) (w : Switch) (rest : List Text) :
    readFrom s (w.arguments ++ rest) = readFrom (w.apply s) rest := by
  cases w with
  | text value | locale value | listen value =>
    simp [Switch.arguments, Switch.apply, readFrom, withValue?, utf8_inj]
  | stdin | serve | verbose =>
    cases rest <;>
      simp [Switch.arguments, Switch.apply, readFrom, withValue?, withSingle, withFlag?, utf8_inj]

theorem readFrom_switches_append (s : Settings) (ws : List Switch) (rest : List Text) :
    readFrom s (ws.flatMap Switch.arguments ++ rest) = readFrom (ws.foldl Switch.apply s) rest := by
  induction ws generalizing s with
  | nil => rfl
  | cons w ws ih =>
    rw [List.flatMap_cons, List.append_assoc, readFrom_arguments, ih, List.foldl_cons]

theorem ofArguments_switches (ws : List Switch) :
    ofArguments (ws.flatMap Switch.arguments) = .ok (ws.foldl Switch.apply {}) := by
  have hread := readFrom_switches_append {} ws []
  rwa [List.append_nil] at hread

/-! ## The settings after all options -/

/-- A setting that an option with a value overwrites holds the last value given. -/
theorem value_foldl_apply (view : Settings → Option Text) (value? : Switch → Option Text)
    (h : ∀ s w, view (w.apply s) = (value? w).or (view s)) (s : Settings) (ws : List Switch) :
    view (ws.foldl Switch.apply s) = (ws.filterMap value?).getLast?.or (view s) := by
  induction ws generalizing s with
  | nil => rfl
  | cons w ws ih =>
    rw [List.foldl_cons, ih, h]
    cases hw : value? w with
    | none => rw [List.filterMap_cons_none hw, Option.none_or]
    | some value =>
      rw [List.filterMap_cons_some hw, List.getLast?_cons]
      cases (ws.filterMap value?).getLast? <;> rfl

/-- A flag is set if it stands anywhere. -/
theorem flag_foldl_apply (view : Settings → Bool) (flag : Switch)
    (h : ∀ s w, view (w.apply s) = (w == flag || view s)) (s : Settings) (ws : List Switch) :
    view (ws.foldl Switch.apply s) = (ws.contains flag || view s) := by
  induction ws generalizing s with
  | nil => rfl
  | cons w ws ih =>
    rw [List.foldl_cons, ih, h, List.contains_cons, show (w == flag) = (flag == w) from BEq.comm,
      ← Bool.or_assoc, Bool.or_comm (ws.contains flag)]

variable (ws : List Switch)

theorem text_applyAll :
    (ws.foldl Switch.apply {}).text = (ws.filterMap Switch.text?).getLast? := by
  rw [value_foldl_apply text Switch.text? (fun _ w => by cases w <;> rfl),
    Option.or_none]

theorem locale_applyAll :
    (ws.foldl Switch.apply {}).locale = (ws.filterMap Switch.locale?).getLast? := by
  rw [value_foldl_apply locale Switch.locale? (fun _ w => by cases w <;> rfl),
    Option.or_none]

theorem listen_applyAll :
    (ws.foldl Switch.apply {}).listen =
      (ws.filterMap Switch.listen?).getLast?.getD (utf8 "127.0.0.1:8787") := by
  have hvalue := value_foldl_apply (fun s => some s.listen) Switch.listen?
    (fun _ w => by cases w <;> rfl) {} ws
  cases hlast : (ws.filterMap Switch.listen?).getLast? with
  | none => exact Option.some.inj (by rw [hvalue, hlast]; rfl)
  | some value => exact Option.some.inj (by rw [hvalue, hlast]; rfl)

theorem readStdin_applyAll :
    (ws.foldl Switch.apply {}).readStdin = ws.contains .stdin := by
  rw [flag_foldl_apply readStdin .stdin (fun _ w => by cases w <;> rfl),
    Bool.or_false]

theorem serve_applyAll : (ws.foldl Switch.apply {}).serve = ws.contains .serve := by
  rw [flag_foldl_apply serve .serve (fun _ w => by cases w <;> rfl),
    Bool.or_false]

theorem verbose_applyAll : (ws.foldl Switch.apply {}).verbose = ws.contains .verbose := by
  rw [flag_foldl_apply verbose .verbose (fun _ w => by cases w <;> rfl),
    Bool.or_false]

end Settings

end CatalogEdit
