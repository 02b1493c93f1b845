import Presolve.Event
import Presolve.Text.Alphanumeric

/-!
# Log Filters

Which events are written. A filter is a list of directives, each of which sets a
limit on the seriousness of events for the targets that start with a given text,
or for all targets. The directive that says most about the target of an event
decides, which is the one with the longest text; a later directive replaces an
earlier one with the same text. An event that no directive speaks about is
dropped.

In writing, directives are separated by commas. `target=level` limits a target,
a level alone limits everything, and a target alone, or one with nothing after
its `=`, lets all its events through. A piece that could be a level is taken for
one. The word `off` by itself switches everything off, and a text without any
piece lets only errors through.

## Main definitions

* `Directive`: A text that targets start with, and a limit.
* `Filter`: A list of directives.
* `Filter.deciding?`: The directive that decides about a target.
* `Filter.admits`: An event is written.
* `Filter.silent`: The filter that lets nothing through.
* `readLimit?`: A limit from its word or number.
* `Directive.ofText`, `Filter.ofText`: Reading.
-/

namespace Presolve

/-- The least serious level that is let through, or `none` if nothing is. -/
abbrev Limit := Option Level

/-- The level is serious enough for the limit. -/
def Limit.admits (limit : Limit) (l : Level) : Bool := limit.any fun most => l.rank ≤ most.rank

/-- A limit for the targets that start with a text, or for all targets. -/
structure Directive where
  target : Option String
  limit : Limit
  deriving DecidableEq

namespace Directive

/-- The directive speaks about a target. -/
def covers (d : Directive) (target : String) : Bool :=
  d.target.all fun start => start.toList.isPrefixOf target.toList

/-- How much of a target the directive pins down. One without a target comes
    last. -/
def specificity (d : Directive) : Nat := d.target.elim 0 fun start => start.length + 1

end Directive

/-- Which events are written. -/
structure Filter where
  directives : List Directive
  deriving DecidableEq

namespace Filter

/-- The directive that decides about a target, which is the last of the most
    specific ones. -/
def deciding? (f : Filter) (target : String) : Option Directive :=
  (f.directives.filter (·.covers target)).foldl (fun best d =>
    if best.all fun b => b.specificity ≤ d.specificity then some d else best) none

/-- The event is written. -/
def admits {α : Type} (f : Filter) (e : Event α) : Bool :=
  (f.deciding? e.target).any fun d => d.limit.admits e.level

/-- The filter that lets nothing through. -/
def silent : Filter := ⟨[⟨none, none⟩]⟩

end Filter

/-- What is wrong with a filter text. -/
inductive FilterError where
  /-- What follows a `=` is no level. -/
  | unknownLevel
  /-- A piece starts with a character that no target or level starts with. -/
  | invalidDirective
  deriving DecidableEq

/-- The text of a fault. -/
def FilterError.message : FilterError → String
  | unknownLevel =>
    "error parsing level filter: expected one of \"off\", \"error\", \"warn\", \"info\", "
      ++ "\"debug\", \"trace\", or a number 0-5"
  | invalidDirective => "invalid filter directive"

/-- The text without regard to the case of ASCII letters. -/
def lowered (text : String) : String := String.ofList (text.toList.map Char.toLower)

/-- The number that digits after an optional plus sign stand for. -/
def readNumber? (text : String) : Option Nat :=
  let digits := if text.toList.head? = some '+' then text.toList.drop 1 else text.toList
  if !digits.isEmpty && digits.all Char.isDigit then
    some (digits.foldl (fun n c => 10 * n + (c.toNat - '0'.toNat)) 0)
  else none

/-- The limit that a word or a number stands for. -/
def readLimit? (text : String) : Option Limit :=
  match readNumber? text with
  | some 0 => some none
  | some 1 => some (some .error)
  | some 2 => some (some .warn)
  | some 3 => some (some .info)
  | some 4 => some (some .debug)
  | some 5 => some (some .trace)
  | some _ => none
  | none =>
    match lowered text with
    | "off" => some none
    | "error" => some (some .error)
    | "warn" => some (some .warn)
    | "info" => some (some .info)
    | "debug" => some (some .debug)
    | "trace" => some (some .trace)
    | _ => none

/-- A character that a target or a level can start with. -/
def startsDirective (c : Char) : Bool :=
  isAlphanumeric c || c == '-' || c == '_' || c == ':'

/-- The directive that a piece of a filter text stands for. -/
def Directive.ofText (piece : String) : Except FilterError Directive :=
  if !piece.toList.head?.any startsDirective then
    .error .invalidDirective
  else
    let target := piece.toList.takeWhile (· != '=')
    match piece.toList.drop target.length with
    | [] =>
      match readLimit? piece with
      | some limit => .ok ⟨none, limit⟩
      | none => .ok ⟨some piece, some .trace⟩
    | _ :: level =>
      if level.isEmpty then
        .ok ⟨some (String.ofList target), some .trace⟩
      else
        match readLimit? (String.ofList level) with
        | some limit => .ok ⟨some (String.ofList target), limit⟩
        | none => .error .unknownLevel

/-- The pieces of a filter text that are not empty. -/
def pieces (text : String) : List String :=
  ((text.toList.splitOn ',').filter (!·.isEmpty)).map String.ofList

/-- The filter that a text stands for, or the fault of its first faulty
    piece. -/
def Filter.ofText (text : String) : Except FilterError Filter :=
  match pieces text with
  | [] => .ok ⟨[⟨none, some .error⟩]⟩
  | parts => (parts.mapM Directive.ofText).map Filter.mk

end Presolve
