import Presolve.Bounds
import Presolve.Decimal.Layout
import Presolve.Id

/-!
# Reports

What a run did, as a list of the changes it made and counts of the constraints
it looked at. The changes are in the order in which they were made and each
carries the number it replaced, so they can be replayed on the model the run
started from.

## Main definitions

* `BoundUpdate`, `ValueRepair`: The two kinds of change.
* `Report`: The changes and the counts.
* `Report.isNoop`: The run changed nothing.
* `Report.json`: The report as a line of text.
-/

namespace Presolve

/-- A bound that a constraint made more restrictive. -/
structure BoundUpdate (α : Type) where
  constraint : ConstraintId
  var : VariableId
  side : Side
  previous : Option α
  current : α

/-- A value that was moved between the bounds of its variable. -/
structure ValueRepair (α : Type) where
  var : VariableId
  previous : α
  current : α

/-- What a run did. -/
structure Report (α : Type) where
  /-- Active constraints looked at. -/
  visited : Nat := 0
  /-- Constraints deactivated, degenerate ones among them. -/
  deactivated : Nat := 0
  /-- Deactivated constraints whose coefficient counts as zero. -/
  degenerate : Nat := 0
  /-- Constraints left alone because a product of unknowns is in them. -/
  skippedNonlinear : Nat := 0
  /-- Constraints left alone because they do not speak of exactly one variable. -/
  skippedNonSingle : Nat := 0
  boundUpdates : List (BoundUpdate α) := []
  valueRepairs : List (ValueRepair α) := []

namespace Report

/-- The run deactivated nothing, and so changed nothing. -/
def isNoop {α : Type} (r : Report α) : Bool := r.deactivated == 0

/-- Numbers in the text of a report keep a point, and use an exponent with its
    sign below `10 ^ -5` and from `10 ^ 16`. What is not finite is written as
    absent. -/
def numberLayout : Layout where
  tie := .even
  positional := some (-5, 15)
  pointZero := true
  plusSign := true
  nan := "null"
  infinity := "null"
  negInfinity := "null"

/-- An object with the given names and written values, without blanks. -/
def objectText (fields : List (String × String)) : String :=
  "\x7b" ++ ",".intercalate (fields.map fun f => "\"" ++ f.1 ++ "\":" ++ f.2) ++ "\x7d"

/-- A list of written values, without blanks. -/
def listText (items : List String) : String := "[" ++ ",".intercalate items ++ "]"

/-- The text of a change of a bound. -/
def updateText (u : BoundUpdate Float) : String :=
  objectText [("constraint", toString u.constraint), ("variable", toString u.var),
    ("side", "\"" ++ u.side.name ++ "\""),
    ("previous", u.previous.elim "null" numberLayout.render),
    ("current", numberLayout.render u.current)]

/-- The text of a change of a value. -/
def repairText (r : ValueRepair Float) : String :=
  objectText [("variable", toString r.var), ("previous", numberLayout.render r.previous),
    ("current", numberLayout.render r.current)]

/-- The text of a report, with its counts before its changes. -/
def json (r : Report Float) : String :=
  objectText [("visited", toString r.visited), ("deactivated", toString r.deactivated),
    ("degenerate", toString r.degenerate), ("skipped_nonlinear", toString r.skippedNonlinear),
    ("skipped_non_single", toString r.skippedNonSingle),
    ("bound_updates", listText (r.boundUpdates.map updateText)),
    ("value_repairs", listText (r.valueRepairs.map repairText))]

end Report

end Presolve
