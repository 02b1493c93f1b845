import Presolve.Bounds
import Presolve.Decimal.Layout
import Presolve.Id

/-!
# Events

What a model and a run tell an observer while they work. An event is kept as
the thing that happened, with the entries and numbers involved; its severity,
its origin and its fields are functions of that. Operations that have something
to tell return their events beside their result, in the order in which they
happened, and leave it to others to filter and to write them.

## Main definitions

* `Level`: The severity of an event, from errors to traces.
* `Event`: The eight things that can happen.
* `Event.level`, `Event.target`: Severity and origin, by which events are
  filtered.
* `Detail`: The value of a field.
* `Event.fields`: The named details of an event.
* `Logged`: A result and the events on the way to it.
-/

namespace Presolve

/-- How serious an event is. -/
inductive Level where
  | error
  | warn
  | info
  | debug
  | trace
  deriving DecidableEq

namespace Level

/-- The place in the order from the most serious, which is one, to the least. -/
def rank : Level → Nat
  | error => 1
  | warn => 2
  | info => 3
  | debug => 4
  | trace => 5

/-- The word for a level in a written event. -/
def name : Level → String
  | error => "ERROR"
  | warn => "WARN"
  | info => "INFO"
  | debug => "DEBUG"
  | trace => "TRACE"

end Level

/-- The name under which the folding pass is registered and reports. -/
def foldName : String := "contrib.constraints_to_var_bounds"

/-- Something an observer is told. -/
inductive Event (α : Type) where
  /-- A block was added under a parent. -/
  | blockAdded (block parent : BlockId) (name : String)
  /-- No pass has this name. -/
  | unknownPass (name : String)
  /-- A product of several unknowns keeps a constraint from being folded. -/
  | nonlinearSkipped (constraint : ConstraintId) (degree : Nat)
  /-- A constraint does not speak about exactly one variable. -/
  | nonSingleSkipped (constraint : ConstraintId) (vars : Nat)
  /-- A bound of a variable became more restrictive. -/
  | boundTightened (var : VariableId) (name : Option String) (side : Side)
      (previous : Option α) (current : α)
  /-- A constraint about one variable was deactivated. -/
  | constraintDeactivated (constraint : ConstraintId) (constraintName : Option String)
      (var : VariableId) (varName : Option String) (coefficient : α) (degenerate : Bool)
  /-- A value was moved between the bounds of its variable. -/
  | valueMoved (var : VariableId) (name : Option String) (previous current : α)
  /-- A run came to its end. -/
  | runFinished (visited deactivated degenerate boundUpdates valueRepairs : Nat)

/-- The value of a field of an event. -/
inductive Detail (α : Type) where
  | text (s : String)
  | count (n : Nat)
  | flag (b : Bool)
  | number (x : α)

namespace Event

variable {α : Type}

/-- The severity of an event. -/
def level : Event α → Level
  | blockAdded .. => .debug
  | unknownPass .. => .warn
  | nonlinearSkipped .. => .trace
  | nonSingleSkipped .. => .trace
  | boundTightened .. => .debug
  | constraintDeactivated .. => .debug
  | valueMoved .. => .debug
  | runFinished .. => .info

/-- The part of the program an event comes from, as a path. -/
def target : Event α → String
  | blockAdded .. => "boundfold_core::model::builder"
  | unknownPass .. => "boundfold_core::transform"
  | _ => "boundfold_core::transform::bounds_to_vars"

/-- The four fields every event starts with. -/
def header (component operation status message : String) : List (String × Detail α) :=
  [("component", .text component), ("operation", .text operation), ("status", .text status),
    ("message", .text message)]

/-- A name as the value of a field, empty if there is none. -/
def nameDetail (name : Option String) : Detail α := .text (name.getD "")

/-- The format of the previous bound in an event. An exponent is used below
    `10 ^ -4` and from `10 ^ 16`, and an integral number keeps its point. -/
def previousLayout : Layout where
  tie := .up
  positional := some (-4, 15)
  pointZero := true
  plusSign := false
  nan := "NaN"
  infinity := "inf"
  negInfinity := "-inf"

/-- The text of the bound that a tightened one replaces. -/
def previousText : Option Float → String
  | none => "None"
  | some x => "Some(" ++ previousLayout.render x ++ ")"

/-- The named details of an event. -/
def fields : Event Float → List (String × Detail Float)
  | blockAdded block parent name =>
    header "model" "add_block" "success" "Added block" ++
      [("block_id", .count block.index), ("parent_id", .count parent.index), ("name", .text name)]
  | unknownPass name =>
    header "transform" "create" "error" "Unknown transformation" ++ [("name", .text name)]
  | nonlinearSkipped constraint degree =>
    header "transform" foldName "skipped" "Constraint is nonlinear" ++
      [("constraint_id", .count constraint.index), ("degree", .count degree)]
  | nonSingleSkipped constraint vars =>
    header "transform" foldName "skipped"
        "Constraint does not reference exactly one variable" ++
      [("constraint_id", .count constraint.index), ("variables", .count vars)]
  | boundTightened var name side previous current =>
    header "transform" "tighten_bound" "success" "Tightened variable bound" ++
      [("variable_id", .count var.index), ("variable_name", nameDetail name),
        ("side", .text side.name), ("previous", .text (previousText previous)),
        ("current", .number current)]
  | constraintDeactivated constraint constraintName var varName coefficient degenerate =>
    header "transform" foldName "success" "Deactivated single-variable constraint" ++
      [("constraint_id", .count constraint.index), ("constraint_name", nameDetail constraintName),
        ("variable_id", .count var.index), ("variable_name", nameDetail varName),
        ("coefficient", .number coefficient), ("degenerate", .flag degenerate)]
  | valueMoved var name previous current =>
    header "transform" "repair_value" "success" "Moved variable value inside its bounds" ++
      [("variable_id", .count var.index), ("variable_name", nameDetail name),
        ("previous", .number previous), ("current", .number current)]
  | runFinished visited deactivated degenerate boundUpdates valueRepairs =>
    header "transform" foldName "success"
        "Folded single-variable constraints into variable bounds" ++
      [("visited", .count visited), ("deactivated", .count deactivated),
        ("degenerate", .count degenerate), ("bound_updates", .count boundUpdates),
        ("value_repairs", .count valueRepairs)]

end Event

/-- A result together with the events on the way to it. -/
structure Logged (α β : Type) where
  result : β
  events : List (Event α)

end Presolve
