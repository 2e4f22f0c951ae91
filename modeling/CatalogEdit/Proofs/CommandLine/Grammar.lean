import CatalogEdit.Proofs.CommandLine.Switches
import Mathlib.Logic.ExistsUnique

/-!
# Argument lists are read by a grammar

An argument list is a row of options, and then it either is at its end or meets an argument that
ends the reading: a call for help, an argument that is no option, or an option whose value is
missing. What stands behind such an argument is never looked at. If there is none, only the last
value of each option and the flags that occur at all decide what is done.

## Main definitions

* `Switch.Ends` — what may stand behind the options, and how reading ends there.
* `Switch.IsReading` — an argument list as a row of options and an end.
* `Switch.SameChoices`, `Switch.modes` — what counts of a row of options.
* `Command.runWith`, `Command.EndsWithUsage` — a run with any planner, and a run that only prints
  the usage.

## Main statements

* `Switch.existsUnique_isReading` — every argument list is read in exactly one way.
* `Command.arguments_are_a_grammar` — what is done in each case.
-/

namespace CatalogEdit

namespace Switch

/-! ## Readings -/

def valueNames : List Text := ["--text", "--locale", "--listen"].map utf8

def flagNames : List Text := ["--stdin", "--serve", "--verbose"].map utf8

def helpNames : List Text := ["--help", "-h"].map utf8

/-- How reading ends at what is left of the arguments behind some options. -/
inductive Ends : Option EarlyEnd → List Text → Prop where
  | complete : Ends none []
  | help {word : Text} (h : word ∈ helpNames) (rest : List Text) : Ends (some .help) (word :: rest)
  | unknown {word : Text} (h : word ∉ valueNames ++ flagNames ++ helpNames) (rest : List Text) :
      Ends (some (.unknown word)) (word :: rest)
  | lacksValue {name : Text} (h : name ∈ valueNames) : Ends (some (.unknown name)) [name]

/-- The arguments are these options, each with the value it takes, and end in this way. -/
def IsReading (arguments : List Text) (ws : List Switch) (ending : Option EarlyEnd) : Prop :=
  ∃ rest, arguments = ws.flatMap Switch.arguments ++ rest ∧ Ends ending rest

variable {arguments rest rest' : List Text} {ws ws' : List Switch} {w w' : Switch}
  {ending ending' : Option EarlyEnd}

theorem mem_valueNames_iff {name : Text} :
    name ∈ valueNames ↔ name = utf8 "--text" ∨ name = utf8 "--locale" ∨ name = utf8 "--listen" := by
  simp [valueNames]

theorem mem_flagNames_iff {name : Text} :
    name ∈ flagNames ↔ name = utf8 "--stdin" ∨ name = utf8 "--serve" ∨ name = utf8 "--verbose" := by
  simp [flagNames]

theorem exists_of_mem_valueNames {name : Text} (h : name ∈ valueNames) (value : Text) :
    ∃ w : Switch, w.arguments = [name, value] := by
  rcases mem_valueNames_iff.mp h with rfl | rfl | rfl
  · exact ⟨.text value, rfl⟩
  · exact ⟨.locale value, rfl⟩
  · exact ⟨.listen value, rfl⟩

theorem exists_of_mem_flagNames {name : Text} (h : name ∈ flagNames) :
    ∃ w : Switch, w.arguments = [name] := by
  rcases mem_flagNames_iff.mp h with rfl | rfl | rfl
  · exact ⟨.stdin, rfl⟩
  · exact ⟨.serve, rfl⟩
  · exact ⟨.verbose, rfl⟩

theorem ends_nil_iff : Ends ending [] ↔ ending = none := by
  constructor
  · intro h
    cases h with
    | complete => rfl
  · rintro rfl
    exact .complete

/-- The first argument that is left over tells how reading ends. -/
theorem ends_cons_iff {name : Text} :
    Ends ending (name :: rest) ↔
      (name ∈ helpNames ∧ ending = some .help) ∨
        ((name ∉ valueNames ++ flagNames ++ helpNames ∨ name ∈ valueNames ∧ rest = []) ∧
          ending = some (.unknown name)) := by
  constructor
  · intro h
    cases h with
    | help h => exact .inl ⟨h, rfl⟩
    | unknown h => exact .inr ⟨.inl h, rfl⟩
    | lacksValue h => exact .inr ⟨.inr ⟨h, rfl⟩, rfl⟩
  · rintro (⟨h, rfl⟩ | ⟨h | ⟨h, rfl⟩, rfl⟩)
    · exact .help h rest
    · exact .unknown h rest
    · exact .lacksValue h

/-- Reading goes on with an option or ends. -/
theorem exists_ends_or_exists_switch (arguments : List Text) :
    (∃ ending, Ends ending arguments) ∨
      ∃ (w : Switch) (rest : List Text), arguments = w.arguments ++ rest := by
  cases arguments with
  | nil => exact .inl ⟨_, .complete⟩
  | cons name rest =>
    by_cases hvalue : name ∈ valueNames
    · cases rest with
      | nil => exact .inl ⟨_, .lacksValue hvalue⟩
      | cons value rest =>
        obtain ⟨w, hw⟩ := exists_of_mem_valueNames hvalue value
        exact .inr ⟨w, rest, by rw [hw]; rfl⟩
    · by_cases hflag : name ∈ flagNames
      · obtain ⟨w, hw⟩ := exists_of_mem_flagNames hflag
        exact .inr ⟨w, rest, by rw [hw]; rfl⟩
      · by_cases hhelp : name ∈ helpNames
        · exact .inl ⟨_, .help hhelp rest⟩
        · exact .inl ⟨_, .unknown (by simp [hvalue, hflag, hhelp]) rest⟩

theorem arguments_ne_nil (w : Switch) : w.arguments ≠ [] := by
  cases w <;> exact List.cons_ne_nil _ _

/-- Every argument list can be read. -/
theorem exists_isReading (arguments : List Text) : ∃ ws ending, IsReading arguments ws ending := by
  induction hlength : arguments.length using Nat.strongRecOn generalizing arguments with
  | ind n ih =>
    rcases exists_ends_or_exists_switch arguments with ⟨ending, hends⟩ | ⟨w, rest, rfl⟩
    · exact ⟨[], ending, arguments, rfl, hends⟩
    · have hpos := List.length_pos_iff.mpr (arguments_ne_nil w)
      rw [List.length_append] at hlength
      obtain ⟨ws, ending, tail, rfl, hends⟩ := ih rest.length (by omega) rest rfl
      exact ⟨w :: ws, ending, tail, by rw [List.flatMap_cons, List.append_assoc], hends⟩

/-! ## Only one reading -/

theorem arguments_append_inj (h : w.arguments ++ rest = w'.arguments ++ rest') :
    w = w' ∧ rest = rest' := by
  cases w <;> cases w' <;> simp_all [arguments, utf8_inj]

/-- Reading does not end where an option stands. -/
theorem not_ends_arguments_append : ¬ Ends ending (w.arguments ++ rest) := by
  intro h
  cases w with
  | text value | locale value | listen value =>
    rcases ends_cons_iff.mp h with ⟨hhelp, -⟩ | ⟨hunknown | ⟨-, hnil⟩, -⟩
    · exact absurd hhelp (by decide)
    · exact hunknown (by decide)
    · exact List.cons_ne_nil value rest hnil
  | stdin | serve | verbose =>
    rcases ends_cons_iff.mp h with ⟨hhelp, -⟩ | ⟨hunknown | ⟨hvalue, -⟩, -⟩
    · exact absurd hhelp (by decide)
    · exact hunknown (by decide)
    · exact absurd hvalue (by decide)

theorem Ends.unique (h : Ends ending rest) (h' : Ends ending' rest) : ending = ending' := by
  cases rest with
  | nil => rw [ends_nil_iff.mp h, ends_nil_iff.mp h']
  | cons name rest =>
    have hdisjoint : name ∈ helpNames → name ∉ valueNames := by
      have hnames : ∀ name ∈ helpNames, name ∉ valueNames := by decide
      exact hnames name
    rw [ends_cons_iff] at h h'
    grind

theorem IsReading.unique (h : IsReading arguments ws ending)
    (h' : IsReading arguments ws' ending') : ws = ws' ∧ ending = ending' := by
  obtain ⟨tail, rfl, hends⟩ := h
  obtain ⟨tail', heq, hends'⟩ := h'
  induction ws generalizing ws' with
  | nil =>
    cases ws' with
    | nil =>
      obtain rfl : tail = tail' := heq
      exact ⟨rfl, hends.unique hends'⟩
    | cons w' ws' =>
      rw [List.flatMap_cons, List.append_assoc] at heq
      obtain rfl : tail = _ := heq
      exact absurd hends not_ends_arguments_append
  | cons w ws ih =>
    rw [List.flatMap_cons, List.append_assoc] at heq
    cases ws' with
    | nil =>
      obtain rfl : _ = tail' := heq
      exact absurd hends' not_ends_arguments_append
    | cons w' ws' =>
      rw [List.flatMap_cons, List.append_assoc] at heq
      obtain ⟨rfl, hrest⟩ := arguments_append_inj heq
      obtain ⟨rfl, hending⟩ := ih hrest
      exact ⟨rfl, hending⟩

/-- Every argument list is read in exactly one way. -/
theorem existsUnique_isReading (arguments : List Text) :
    ∃! reading : List Switch × Option EarlyEnd, IsReading arguments reading.1 reading.2 := by
  obtain ⟨ws, ending, h⟩ := exists_isReading arguments
  refine ⟨(ws, ending), h, ?_⟩
  rintro ⟨ws', ending'⟩ h'
  obtain ⟨hws, hending⟩ := h'.unique h
  exact Prod.ext hws hending

/-! ## What counts of the options -/

/-- The last value of each option is the same, and so are the flags that occur. -/
structure SameChoices (ws ws' : List Switch) : Prop where
  text : (ws.filterMap text?).getLast? = (ws'.filterMap text?).getLast?
  locale : (ws.filterMap locale?).getLast? = (ws'.filterMap locale?).getLast?
  listen : (ws.filterMap listen?).getLast? = (ws'.filterMap listen?).getLast?
  flag : ∀ flag ∈ [Switch.stdin, .serve, .verbose], flag ∈ ws ↔ flag ∈ ws'

/-- How many of the three ways to run the program are asked for. -/
def modes (ws : List Switch) : Nat :=
  [ws.any fun w => w.text?.isSome, ws.contains .stdin, ws.contains .serve].count true

end Switch

/-! ## Reading the settings -/

namespace Settings

open Switch

variable {rest : List Text} {ws ws' : List Switch}

/-- Only the choices made by the options count. -/
theorem applyAll_eq_of_sameChoices (h : SameChoices ws ws') :
    ws.foldl Switch.apply {} = ws'.foldl Switch.apply {} := by
  have hflag : ∀ flag ∈ [Switch.stdin, .serve, .verbose], ws.contains flag = ws'.contains flag := by
    intro flag hmem
    simp only [List.contains_eq_mem, h.flag flag hmem]
  have htext : (ws.foldl Switch.apply {}).text = (ws'.foldl Switch.apply {}).text := by
    rw [text_applyAll, text_applyAll, h.text]
  have hlocale : (ws.foldl Switch.apply {}).locale = (ws'.foldl Switch.apply {}).locale := by
    rw [locale_applyAll, locale_applyAll, h.locale]
  have hlisten : (ws.foldl Switch.apply {}).listen = (ws'.foldl Switch.apply {}).listen := by
    rw [listen_applyAll, listen_applyAll, h.listen]
  have hstdin : (ws.foldl Switch.apply {}).readStdin = (ws'.foldl Switch.apply {}).readStdin := by
    rw [readStdin_applyAll, readStdin_applyAll, hflag .stdin (by simp)]
  have hserve : (ws.foldl Switch.apply {}).serve = (ws'.foldl Switch.apply {}).serve := by
    rw [serve_applyAll, serve_applyAll, hflag .serve (by simp)]
  have hverbose : (ws.foldl Switch.apply {}).verbose = (ws'.foldl Switch.apply {}).verbose := by
    rw [verbose_applyAll, verbose_applyAll, hflag .verbose (by simp)]
  cases hs : ws.foldl Switch.apply {}
  cases hs' : ws'.foldl Switch.apply {}
  simp_all

theorem isHelp_iff {name : Text} : isHelp name = true ↔ name ∈ helpNames := by
  simp [isHelp, helpNames]

/-- An argument that is no option ends the reading, with something behind it or not. -/
theorem readFrom_cons_of_not_mem {name : Text} (h : name ∉ valueNames ++ flagNames)
    (s : Settings) :
    readFrom s (name :: rest) = .error (if isHelp name then .help else .unknown name) := by
  simp only [List.mem_append, mem_valueNames_iff, mem_flagNames_iff, not_or] at h
  have hflag : s.withFlag? name = none := by simp [withFlag?, h]
  cases rest with
  | nil => simp only [readFrom, withSingle, hflag]
  | cons value rest =>
    have hvalue : s.withValue? name value = none := by simp [withValue?, h]
    simp only [readFrom, withSingle, hflag, hvalue]

/-- An option that lacks its value is read like an argument that is no option. -/
theorem readFrom_singleton_of_mem {name : Text} (h : name ∈ valueNames) (s : Settings) :
    readFrom s [name] = .error (.unknown name) := by
  have hnames : ∀ name ∈ valueNames, name ∉ flagNames ∧ isHelp name = false := by decide
  obtain ⟨hflag, hhelp⟩ := hnames name h
  simp only [mem_flagNames_iff, not_or] at hflag
  simp [readFrom, withSingle, withFlag?, hflag, hhelp]

theorem readFrom_of_ends {ending : Option EarlyEnd} (h : Ends ending rest) (s : Settings) :
    readFrom s rest = ending.elim (.ok s) .error := by
  cases h with
  | complete => rfl
  | help h rest =>
    have hnames : ∀ name ∈ helpNames, name ∉ valueNames ++ flagNames := by decide
    rw [readFrom_cons_of_not_mem (hnames _ h), if_pos (isHelp_iff.mpr h), Option.elim_some]
  | unknown h rest =>
    rw [List.mem_append, not_or] at h
    rw [readFrom_cons_of_not_mem h.1, if_neg (mt isHelp_iff.mp h.2), Option.elim_some]
  | lacksValue h => rw [readFrom_singleton_of_mem h, Option.elim_some]

/-- What the options before the end ask for, unless the end is early. -/
theorem ofArguments_of_isReading {arguments : List Text} {ending : Option EarlyEnd}
    (h : IsReading arguments ws ending) :
    ofArguments arguments = ending.elim (.ok (ws.foldl Switch.apply {})) .error := by
  obtain ⟨rest, rfl, hends⟩ := h
  rw [ofArguments, readFrom_switches_append, readFrom_of_ends hends]

end Settings

/-! ## Runs -/

namespace Command

open Switch (IsReading SameChoices modes)

/-- The run in which requests are handed to this planner. -/
def runWith (planner : Planner) (stdin : Text) : Command → Run
  | .plan request =>
    match planner request with
    | .ok response =>
      { exitCode := if response.isRefusal then 1 else 0, output := .json response.encode }
    | .error failure => .fatal failure.message
  | .planStdin verbose => .ofEnding (Endpoint.answer planner verbose stdin)
  | c => c.run stdin

theorem runWith_defaultPlanner (c : Command) (stdin : Text) :
    c.runWith defaultPlanner stdin = c.run stdin := by
  cases c <;> rfl

/-- Whatever a planner would say and whatever stands on standard input, only the usage and this
message are printed. -/
def EndsWithUsage (c : Command) (exitCode : Nat) (message : Text) : Prop :=
  ∀ planner stdin, c.runWith planner stdin = { exitCode, output := .usage, stderr := message }

theorem ofSettings_eq_ambiguous_iff {s : Settings} :
    ofSettings s = .ambiguous ↔ [s.text.isSome, s.readStdin, s.serve].count true ≠ 1 := by
  unfold ofSettings
  cases s.text <;> cases s.readStdin <;> cases s.serve <;> simp

variable {arguments : List Text} {ws : List Switch}

/-- A mode is set if an option asks for it. -/
theorem modes_eq (ws : List Switch) :
    let s := ws.foldl Switch.apply {}
    modes ws = [s.text.isSome, s.readStdin, s.serve].count true := by
  intro s
  have htext : s.text.isSome = ws.any fun w => w.text?.isSome := by
    rw [Settings.text_applyAll, Bool.eq_iff_iff, List.getLast?_isSome, ne_eq,
      List.filterMap_eq_nil_iff, List.any_eq_true]
    simp [Option.isSome_iff_ne_none]
  rw [modes, htext, Settings.readStdin_applyAll, Settings.serve_applyAll]

/-- What is done, by the way in which reading the arguments ends. -/
theorem ofArguments_of_isReading {ending : Option EarlyEnd} (h : IsReading arguments ws ending) :
    ofArguments arguments =
      match ending with
      | none => ofSettings (ws.foldl Switch.apply {})
      | some .help => .help
      | some (.unknown argument) => .unknownArgument argument := by
  rw [ofArguments, Settings.ofArguments_of_isReading h]
  cases ending with
  | none => rfl
  | some early => cases early <;> rfl

/-- Every argument list is read in exactly one way, as options and an end. A call for help or an
argument that is no option, if it comes first, decides alone that only the usage is printed.
Otherwise only the choices made by the options count, and the usage is printed unless they ask for
exactly one mode. -/
theorem arguments_are_a_grammar (arguments : List Text) :
    (∃! reading : List Switch × Option EarlyEnd, IsReading arguments reading.1 reading.2) ∧
      ∀ ws ending, IsReading arguments ws ending →
        (ending = some .help → (ofArguments arguments).EndsWithUsage 0 []) ∧
        (∀ word, ending = some (.unknown word) → (ofArguments arguments).EndsWithUsage 1
          (utf8 "Unknown argument: " ++ word ++ utf8 "\n\n")) ∧
        (ending = none →
          (∀ arguments' ws', IsReading arguments' ws' none → SameChoices ws ws' →
            ofArguments arguments' = ofArguments arguments) ∧
          (modes ws ≠ 1 → (ofArguments arguments).EndsWithUsage 1
            (utf8 "Exactly one of --text, --stdin or --serve is required\n\n"))) := by
  refine ⟨Switch.existsUnique_isReading arguments, ?_⟩
  intro ws ending h
  refine ⟨?help, ?unknown, ?complete⟩
  case help =>
    rintro rfl planner stdin
    rw [ofArguments_of_isReading h]
    rfl
  case unknown =>
    rintro word rfl planner stdin
    rw [ofArguments_of_isReading h]
    rfl
  case complete =>
    rintro rfl
    constructor
    · intro arguments' ws' h' hsame
      rw [ofArguments_of_isReading h, ofArguments_of_isReading h',
        Settings.applyAll_eq_of_sameChoices hsame]
    · intro hmodes planner stdin
      rw [modes_eq, ← ofSettings_eq_ambiguous_iff] at hmodes
      rw [ofArguments_of_isReading h, hmodes]
      rfl

theorem arguments_are_a_grammar_names_as_values :
    (ofArguments (["--text", "--help", "--help", "--oops"].map utf8)).EndsWithUsage 0 [] ∧
      (ofArguments (["--text", "--stdin", "--listen"].map utf8)).EndsWithUsage 1
        (utf8 "Unknown argument: " ++ utf8 "--listen" ++ utf8 "\n\n") ∧
      ofArguments (["--text", "--serve", "--verbose", "--verbose"].map utf8) =
        ofArguments (["--text", "-h", "--verbose", "--text", "--serve"].map utf8) ∧
      (ofArguments (["--serve", "--locale", "--text", "--stdin"].map utf8)).EndsWithUsage 1
        (utf8 "Exactly one of --text, --stdin or --serve is required\n\n") := by
  refine ⟨?help, ?unknown, ?same, ?ambiguous⟩
  case help =>
    exact ((arguments_are_a_grammar _).2 [.text (utf8 "--help")] (some .help)
      ⟨["--help", "--oops"].map utf8, rfl, .help (by decide) _⟩).1 rfl
  case unknown =>
    exact ((arguments_are_a_grammar _).2 [.text (utf8 "--stdin")]
      (some (.unknown (utf8 "--listen")))
      ⟨["--listen"].map utf8, rfl, .lacksValue (by decide)⟩).2.1 _ rfl
  case same =>
    have hsame : SameChoices
        [.text (utf8 "-h"), .verbose, .text (utf8 "--serve")]
        [.text (utf8 "--serve"), .verbose, .verbose] :=
      ⟨rfl, rfl, rfl, by simp⟩
    exact (((arguments_are_a_grammar _).2 _ none ⟨[], rfl, .complete⟩).2.2 rfl).1 _ _
      ⟨[], rfl, .complete⟩ hsame
  case ambiguous =>
    exact (((arguments_are_a_grammar _).2 [.serve, .locale (utf8 "--text"), .stdin] none
      ⟨[], rfl, .complete⟩).2.2 rfl).2 (by decide)

end Command

end CatalogEdit
