import CatalogEdit.Endpoint
import CatalogEdit.SocketAddress

/-!
# The command line

Arguments are read from the left; an option that takes a value takes the next argument,
whatever that is. A run is a pure function of the arguments and of standard input.

## Main definitions

* `Settings`, `Settings.ofArguments` — what the arguments ask for, or where reading them ends.
* `Command`, `Command.ofSettings` — what the program is to do.
* `Run`, `Command.run` — exit code, output and messages.
-/

namespace CatalogEdit

/-! ## Arguments -/

structure Settings where
  text : Option Text := none
  locale : Option Text := none
  readStdin : Bool := false
  serve : Bool := false
  listen : Text := utf8 "127.0.0.1:8787"
  verbose : Bool := false
deriving DecidableEq, Repr

/-- Why reading the arguments ends before the last one. -/
inductive EarlyEnd where
  | help
  | unknown (argument : Text)
deriving DecidableEq, Repr

namespace Settings

/-- The settings after an option that takes a value. -/
def withValue? (option value : Text) (s : Settings) : Option Settings :=
  if option == utf8 "--text" then some { s with text := some value }
  else if option == utf8 "--locale" then some { s with locale := some value }
  else if option == utf8 "--listen" then some { s with listen := value }
  else none

/-- The settings after an option that stands alone. -/
def withFlag? (option : Text) (s : Settings) : Option Settings :=
  if option == utf8 "--stdin" then some { s with readStdin := true }
  else if option == utf8 "--serve" then some { s with serve := true }
  else if option == utf8 "--verbose" then some { s with verbose := true }
  else none

def isHelp (option : Text) : Bool := option == utf8 "--help" || option == utf8 "-h"

/-- The settings after an argument that takes no value, or the end of reading. -/
def withSingle (argument : Text) (s : Settings) : Except EarlyEnd Settings :=
  match s.withFlag? argument with
  | some s => .ok s
  | none => .error (if isHelp argument then .help else .unknown argument)

def readFrom (s : Settings) : List Text → Except EarlyEnd Settings
  | [] => .ok s
  | [last] => s.withSingle last
  | argument :: value :: rest =>
    match s.withValue? argument value with
    | some s => readFrom s rest
    | none =>
      match s.withSingle argument with
      | .ok s => readFrom s (value :: rest)
      | .error e => .error e

def ofArguments (arguments : List Text) : Except EarlyEnd Settings := readFrom {} arguments

end Settings

/-! ## Commands -/

inductive Command where
  | help
  | unknownArgument (argument : Text)
  /-- No mode, or more than one. -/
  | ambiguous
  | plan (request : Request)
  | planStdin (verbose : Bool)
  | serve (listen : Text) (verbose : Bool)
deriving DecidableEq, Repr

namespace Command

def ofSettings (s : Settings) : Command :=
  match s.text, s.readStdin, s.serve with
  | some text, false, false => .plan { text, locale := s.locale }
  | none, true, false => .planStdin s.verbose
  | none, false, true => .serve s.listen s.verbose
  | _, _, _ => .ambiguous

def ofArguments (arguments : List Text) : Command :=
  match Settings.ofArguments arguments with
  | .ok s => ofSettings s
  | .error .help => .help
  | .error (.unknown argument) => .unknownArgument argument

end Command

/-! ## Runs -/

inductive Output where
  | nothing
  | usage
  | json (j : Json)

structure Run where
  exitCode : Nat
  output : Output := .nothing
  stderr : Text := []

def usageLines : List Text :=
  ["Usage: bulk_planner [options]",
    "",
    "Turns a free-form bulk edit request into a JSON plan.",
    "",
    "Options:",
    "  --text TEXT        Plan TEXT and print the response",
    "  --locale TAG       Locale forwarded with the request",
    "  --stdin            Read a JSON request body \x7btext, locale?\x7d from stdin",
    "  --serve            Serve POST /api/plan over HTTP",
    "  --listen HOST:PORT Address for --serve   (default: 127.0.0.1:8787)",
    "  --verbose          Enable verbose diagnostics",
    "  --help, -h         Show this message"].map utf8

def usageText : Text := usageLines.flatMap fun line => line ++ utf8 "\n"

namespace Run

def misuse (message : Text) : Run where
  exitCode := 1
  output := .usage
  stderr := message ++ utf8 "\n\n"

def fatal (message : Text) : Run where
  exitCode := 1
  stderr := utf8 "Fatal error: " ++ message ++ utf8 "\n"

/-- The run in which a body is handled and the reply printed. -/
def ofEnding (e : Ending) : Run :=
  match e.result with
  | .ok reply =>
    { exitCode := if reply.status == 200 then 0 else 1
      output := .json reply.body
      stderr := e.log }
  | .error message => { fatal message with stderr := e.log ++ (fatal message).stderr }

end Run

namespace Command

def runText (request : Request) : Run :=
  match defaultPlanner request with
  | .ok response =>
    { exitCode := if response.isRefusal then 1 else 0, output := .json response.encode }
  | .error failure => .fatal failure.message

def runStdin (verbose : Bool) (stdin : Text) : Run :=
  .ofEnding (Endpoint.answer defaultPlanner verbose stdin)

/-- No server is part of this program: an address that could be served is turned down too. -/
def runServe (listen : Text) : Run :=
  match SocketAddress.parse listen with
  | .error fault => .fatal fault.message
  | .ok _ => .fatal (utf8 "no HTTP server is available")

def run (stdin : Text) : Command → Run
  | .help => { exitCode := 0, output := .usage }
  | .unknownArgument argument => .misuse (utf8 "Unknown argument: " ++ argument)
  | .ambiguous => .misuse (utf8 "Exactly one of --text, --stdin or --serve is required")
  | .plan request => runText request
  | .planStdin verbose => runStdin verbose stdin
  | .serve listen _ => runServe listen

end Command

end CatalogEdit
