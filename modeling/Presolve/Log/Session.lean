import Presolve.Log.Filter
import Presolve.Scalar
import Presolve.Text.Message

/-!
# Log Sessions

Whether events are written, which ones, and in which form. A program starts
without a log. Asking for one names a filter and a form, from an argument or
from the settings around the program; if both can be read the log is set up, and
from then on it stays as it is, whatever is asked for later. A request that
cannot be read sets up nothing.

The log itself is kept by a library, which reads filters, sets the log up and
knows whether there is one. Requests are answered by means of any such library.
The one that a session stands for does what is asked of it unless there is a log
already.

## Main definitions

* `Format`: The two forms of a log.
* `LogError`: Why a request fails.
* `LogRequest`: What is asked for.
* `LogLibrary`: What a program needs to have a log.
* `LogLibrary.enable`: Answer a request.
* `Session`: The log that is set up, if any.
* `Session.library`: The library that keeps it.
* `Session.written`: The events of a list that are written.
* `Detail.logged`: A field as it appears in a log.
-/

namespace Presolve

/-- The form in which events are written. -/
inductive Format where
  | pretty
  | json
  deriving DecidableEq

/-- Why a request for a log fails. -/
inductive LogError where
  /-- The filter cannot be read, for this reason. -/
  | invalidFilter (detail : String)
  /-- No form has this name. -/
  | invalidFormat (value : String)
  /-- The log cannot be set up, for this reason. -/
  | initFailed (detail : String)
  deriving DecidableEq

namespace LogError

/-- The code of a fault. -/
def code : LogError → String
  | invalidFilter _ => "LOGGING_INVALID_FILTER"
  | invalidFormat _ => "LOGGING_INVALID_FORMAT"
  | initFailed _ => "LOGGING_INIT_FAILED"

/-- The text of a fault. -/
def message (e : LogError) : String :=
  withCode e.code <|
    match e with
    | invalidFilter detail => "Invalid log filter: " ++ detail
    | invalidFormat value =>
      "Invalid BOUNDFOLD_LOG_FORMAT '" ++ value ++ "' (expected 'json' or 'pretty')"
    | initFailed detail => "Failed to initialize logging: " ++ detail

end LogError

namespace Format

/-- The word for a form. -/
def name : Format → String
  | pretty => "Pretty"
  | json => "Json"

/-- The form that a word stands for, without regard to the case of ASCII
    letters. -/
def ofText (value : String) : Except LogError Format :=
  match lowered value with
  | "pretty" => .ok pretty
  | "json" => .ok json
  | _ => .error (.invalidFormat value)

end Format

/-- What is asked for: a filter given as an argument, a filter from the settings
    around the program, and a form from those settings. -/
structure LogRequest where
  level : Option String := none
  ambientFilter : Option String := none
  ambientFormat : Option String := none

namespace LogRequest

/-- The filter asked for, in writing. The argument comes before the settings, and
    without either everything is off. -/
def filterText (q : LogRequest) : String := (q.level <|> q.ambientFilter).getD "off"

/-- The form asked for. -/
def format (q : LogRequest) : Except LogError Format :=
  q.ambientFormat.elim (.ok .pretty) Format.ofText

end LogRequest

/-- What a program needs to have a log. -/
structure LogLibrary where
  Filter : Type
  /-- What is known of the log of the whole program. -/
  State : Type
  /-- The filter that lets nothing through. -/
  silent : Filter
  /-- The filter that a text stands for, or what is wrong with the text. -/
  readFilter : String → Except String Filter
  /-- There is a log. -/
  isSetUp : State → Bool
  /-- Try to set up a log. It may be impossible, for some reason. -/
  setUp : State → Filter → Format → Except String Unit × State

namespace LogLibrary

variable (L : LogLibrary)

/-- The filter that a text stands for. The word `off` is not left to the
    library. -/
def filterOf (text : String) : Except LogError L.Filter :=
  if lowered text = "off" then .ok L.silent
  else (L.readFilter text).mapError .invalidFilter

/-- Set up a log, unless there is one. The answer says whether this request set
    it up. -/
def enable (s : L.State) (q : LogRequest) : Except LogError Bool × L.State :=
  if L.isSetUp s then
    (.ok false, s)
  else
    match L.filterOf q.filterText with
    | .error e => (.error e, s)
    | .ok filter =>
      match q.format with
      | .error e => (.error e, s)
      | .ok format =>
        match L.setUp s filter format with
        | (.error detail, s) => (.error (.initFailed detail), s)
        | (.ok _, s) => (.ok true, s)

/-- Answer requests one after the other. -/
def enableAll (s : L.State) : List LogRequest → List (Except LogError Bool) × L.State
  | [] => ([], s)
  | q :: qs =>
    let (answer, s) := L.enable s q
    let (answers, s) := enableAll s qs
    (answer :: answers, s)

end LogLibrary

/-- The filter and the form of the log that is set up, if one is. -/
structure Session where
  log : Option (Filter × Format) := none

namespace Session

/-- The library that keeps the log of a session. A log is never replaced. -/
def library : LogLibrary where
  Filter := Filter
  State := Session
  silent := .silent
  readFilter text := (Filter.ofText text).mapError FilterError.message
  isSetUp s := s.log.isSome
  setUp s filter format :=
    if s.log.isSome then (.error "a global default trace dispatcher has already been set", s)
    else (.ok (), ⟨some (filter, format)⟩)

/-- Answer requests one after the other. -/
def enableAll (s : Session) (qs : List LogRequest) : List (Except LogError Bool) × Session :=
  library.enableAll s qs

/-- The form of the log, if there is one. -/
def format? (s : Session) : Option Format := s.log.map (·.2)

/-- The events of a list that reach the log. -/
def written {α : Type} (s : Session) (events : List (Event α)) : List (Event α) :=
  match s.log with
  | none => []
  | some (filter, _) => events.filter filter.admits

end Session

/-- A field of an event in a log, where a number that is not finite is left
    out. -/
def Detail.logged {α : Type} [Scalar α] : Detail α → Option (Detail α)
  | .number x => if Scalar.isFinite x then some (.number x) else none
  | d => some d

end Presolve
