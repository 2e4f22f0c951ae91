import CatalogEdit.Proofs.CommandLine.Switches
import CatalogEdit.Proofs.Endpoint.Faults
import CatalogEdit.Proofs.Json.Body
import CatalogEdit.Proofs.Plan.Sound

/-!
# Both ways to plan one request agree

A request can be given in the arguments, or as a JSON body on standard input. Both runs end with the
same exit code, which tells a plan or a clarification from a refusal, and both print the response.
Only an empty text is refused with different words, since a body with an empty text holds no
request. A body can also hold what no argument can, a number out of range; then no response is
printed.

## Main definitions

* `Switch.ForText`, `Switch.ForStdin` — the options of either kind of run, in any order.
* `Run.Prints` — a response is printed, and the exit code tells what it is.
* `Response.IsInvalidRequest` — the refusal of something that is no request.

## Main statements

* `Command.prints_runText`, `Command.prints_runStdin` — what either run prints.
* `Command.runStdin_of_outOfRange` — the run that prints no response.
* `text_and_stdin_agree` — the two runs on the same request.
-/

namespace CatalogEdit

/-! ## The options of a run -/

namespace Switch

/-- The options that ask for a plan for `r`, in any order, with `--verbose` any number of times. -/
def ForText (r : Request) (ws : List Switch) : Prop :=
  ∃ n, ws.Perm (.text r.text :: ((r.locale.map Switch.locale).toList ++ List.replicate n .verbose))

/-- The options that ask for a plan for the body on standard input. -/
def ForStdin (ws : List Switch) : Prop := ∃ n, ws.Perm (.stdin :: List.replicate n .verbose)

variable {r : Request} {ws : List Switch}

theorem ofArguments_of_forText (h : ForText r ws) :
    Command.ofArguments (ws.flatMap arguments) = .plan r := by
  obtain ⟨n, hperm⟩ := h
  obtain ⟨text, locale⟩ := r
  have htext : ws.filterMap text? = [text] := by
    refine List.perm_singleton.mp ((hperm.filterMap text?).trans (.of_eq ?_))
    cases locale <;> simp [text?]
  have hlocale : ws.filterMap locale? = locale.toList := by
    have hlist := hperm.filterMap locale?
    cases locale with
    | none => exact List.perm_nil.mp (hlist.trans (.of_eq (by simp [locale?])))
    | some l =>
      exact List.perm_singleton.mp (hlist.trans (.of_eq (by simp [List.filterMap_cons, locale?])))
  have hstdin : ws.contains .stdin = false := by
    cases locale <;> simp [hperm.mem_iff]
  have hserve : ws.contains .serve = false := by
    cases locale <;> simp [hperm.mem_iff]
  simp only [Command.ofArguments, Settings.ofArguments_switches, Command.ofSettings,
    Settings.text_applyAll, Settings.locale_applyAll, Settings.readStdin_applyAll,
    Settings.serve_applyAll, htext, hlocale, hstdin, hserve]
  cases locale <;> rfl

theorem ofArguments_of_forStdin (h : ForStdin ws) :
    ∃ verbose, Command.ofArguments (ws.flatMap arguments) = .planStdin verbose := by
  obtain ⟨n, hperm⟩ := h
  have htext : ws.filterMap text? = [] :=
    List.perm_nil.mp ((hperm.filterMap text?).trans (.of_eq (by simp [text?])))
  have hstdin : ws.contains .stdin = true := by simp [hperm.mem_iff]
  have hserve : ws.contains .serve = false := by simp [hperm.mem_iff]
  simp only [Command.ofArguments, Settings.ofArguments_switches, Command.ofSettings,
    Settings.text_applyAll, Settings.readStdin_applyAll, Settings.serve_applyAll, htext, hstdin,
    hserve]
  exact ⟨_, rfl⟩

end Switch

/-! ## Runs -/

/-- The response is printed, and the exit code is zero unless it is a refusal. -/
structure Run.Prints (run : Run) (response : Response) : Prop where
  output : run.output = .json response.encode
  exitCode : run.exitCode = if response.isRefusal then 1 else 0

/-- The refusal of something that is no request, in whatever words. -/
def Response.IsInvalidRequest (response : Response) : Prop :=
  ∃ message, response = .refusal ⟨Refusal.invalidRequestCode, message⟩

theorem Request.respond_of_text_eq_nil {r : Request} (h : r.text = []) :
    r.respond = .ok (.refusal Refusal.blankText) := by
  rw [r.respond_eq, h]
  rfl

namespace Command

variable {r : Request} {response : Response}

theorem prints_runText (h : r.respond = .ok response) : (runText r).Prints response := by
  simp only [runText, defaultPlanner, h, Except.mapError_ok]
  exact ⟨rfl, rfl⟩

theorem prints_runStdin {body : Text} (hbody : r.IsSentAs body) (hne : r.text ≠ [])
    (h : r.respond = .ok response) (verbose : Bool) : (runStdin verbose body).Prints response := by
  obtain ⟨j, hparse, hj⟩ := hbody
  have hread : Json.read body = .ok j := Except.mapError_eq_ok.mp hparse
  have hdecode := Request.decode_eq_ok.mpr ⟨hj, hne⟩
  have hplanner : defaultPlanner r = .ok response := by rw [defaultPlanner, h, Except.mapError_ok]
  simp only [runStdin, Endpoint.answer_of_decoded hread hdecode, Outcome.ofRequest, hplanner]
  refine ⟨rfl, ?_⟩
  simp only [Outcome.ending, Outcome.result, Run.ofEnding]
  by_cases hrefusal : response.isRefusal <;> simp [hrefusal]

/-- A body in which the text is empty holds no request. -/
theorem prints_runStdin_of_text_eq_nil {body : Text} (hbody : r.IsSentAs body)
    (hnil : r.text = []) (verbose : Bool) :
    ∃ response : Response, response.IsInvalidRequest ∧
      (runStdin verbose body).Prints response := by
  obtain ⟨j, hparse, hj⟩ := hbody
  have hread : Json.read body = .ok j := Except.mapError_eq_ok.mp hparse
  have hnone : ¬ ∃ r' : Request, r'.IsWrittenBy j ∧ r'.text ≠ [] := fun ⟨r', hr', hne⟩ =>
    hne ((hr'.text_unique hj).trans hnil)
  obtain ⟨e, he⟩ := Request.exists_decode_eq_error hnone
  refine ⟨.refusal ⟨Refusal.invalidRequestCode, e.message⟩, ⟨_, rfl⟩, ?_⟩
  simp only [runStdin, Endpoint.answer_of_rejected hread he]
  exact ⟨rfl, rfl⟩

/-- A number out of range, wherever it stands in the body, ends the run with a message. -/
theorem runStdin_of_outOfRange {body literal : Text} {j : Json} (hbody : Json.IsJson body j)
    (hliteral : Json.firstOutOfRange? body = some literal) (verbose : Bool) :
    runStdin verbose body =
      { exitCode := 1
        output := .nothing
        stderr := (if verbose then Outcome.bodyLine body else []) ++ (utf8 "Fatal error: " ++
          (utf8 "[json.exception.out_of_range.406] number overflow parsing '" ++ literal ++
            utf8 "'") ++ utf8 "\n") } := by
  obtain ⟨position, hread⟩ := Json.exists_read_eq_error hbody hliteral
  rw [runStdin, Endpoint.answer_of_outOfRange hread]
  rfl

end Command

/-- A request in the arguments and the same request in a body on standard input lead to the same
exit code, which is zero exactly for a plan or a clarification, and to the same response unless the
text is empty: then either response refuses it as no request. -/
theorem text_and_stdin_agree {r : Request} {ws ws' : List Switch} {body : Text}
    (hws : Switch.ForText r ws) (hws' : Switch.ForStdin ws') (hbody : r.IsSentAs body)
    (input : Text) :
    let run := (Command.ofArguments (ws.flatMap Switch.arguments)).run input
    let run' := (Command.ofArguments (ws'.flatMap Switch.arguments)).run body
    run.exitCode = run'.exitCode ∧
      ∃ response response' : Response, run.Prints response ∧ run'.Prints response' ∧
        r.respond = .ok response ∧ (r.text ≠ [] → response' = response) ∧
        (r.text = [] → response.IsInvalidRequest ∧ response'.IsInvalidRequest) := by
  obtain ⟨verbose, hstdin⟩ := Switch.ofArguments_of_forStdin hws'
  obtain ⟨response, hrespond, -⟩ := r.exists_isSound_respond
  have hrun := Command.prints_runText hrespond
  simp only [Switch.ofArguments_of_forText hws, hstdin, Command.run]
  by_cases hnil : r.text = []
  · obtain rfl := Except.ok.inj ((Request.respond_of_text_eq_nil hnil).symm.trans hrespond)
    obtain ⟨response', ⟨message, rfl⟩, hrun'⟩ :=
      Command.prints_runStdin_of_text_eq_nil hbody hnil verbose
    exact ⟨hrun.exitCode.trans hrun'.exitCode.symm, _, _, hrun, hrun', hrespond,
      fun hne => absurd hnil hne, fun _ => ⟨⟨_, rfl⟩, ⟨_, rfl⟩⟩⟩
  · have hrun' := Command.prints_runStdin hbody hnil hrespond verbose
    exact ⟨hrun.exitCode.trans hrun'.exitCode.symm, response, response, hrun, hrun', hrespond,
      fun _ => rfl, fun hnil' => absurd hnil' hnil⟩

theorem text_and_stdin_agree_archive :
    let r : Request := { text := utf8 "Archive \"--stdin\"", locale := some (utf8 "--verbose") }
    let arguments := [utf8 "--verbose", utf8 "--locale", utf8 "--verbose", utf8 "--text", r.text]
    let run := (Command.ofArguments arguments).run []
    let run' := (Command.ofArguments [utf8 "--stdin", utf8 "--verbose"]).run
      (Json.render 0 r.encode)
    run.exitCode = run'.exitCode ∧
      ∃ response, run.Prints response ∧ run'.Prints response ∧ r.respond = .ok response := by
  intro r
  have hws : Switch.ForText r [.verbose, .locale (utf8 "--verbose"), .text r.text] := by
    refine ⟨1, ?_⟩
    decide +kernel
  have hws' : Switch.ForStdin [.stdin, .verbose] := ⟨1, .refl _⟩
  have hbody : r.IsSentAs (Json.render 0 r.encode) :=
    Request.isSentAs_render_encode (by decide +kernel) (by decide +kernel)
  obtain ⟨hexit, response, response', hrun, hrun', hrespond, heq, -⟩ :=
    text_and_stdin_agree hws hws' hbody []
  obtain rfl := heq (by decide +kernel)
  exact ⟨hexit, response', hrun, hrun', hrespond⟩

end CatalogEdit
