import Presolve.Fold.Pass
import Presolve.Fold.Report
import Presolve.Model.Edit
import Presolve.Model.Walk

/-!
# Folding Constraints into Bounds

A constraint `lower ≤ k * x + c ≤ upper` restricts nothing but `x`. Its bounds
for `x` are `(upper - c) / k` and `(lower - c) / k`, and division by a negative
`k` exchanges the sides they restrict. A run moves these numbers onto the
variable where they are more restrictive than what it has, and deactivates the
constraint. Constraints about several variables, about none, or with a product
of unknowns in them are left alone.

A number that came out as the infinity that restricts nothing on its side is
passed over. One that came out as the other infinity, or as NaN, cannot be
respected by any value, and the run stops there. So does a run whose reduction
fails or names a variable the model does not have. What was done before a run
stopped stays done.

Once its constraint is deactivated a variable may not occur in any other, so its
value is moved between its bounds at once, up to the lower bound first.

## Main definitions

* `Run`: The state of a run, which is a model, a report and the events so far.
* `Stopped`: The state of a run that failed, with the reason.
* `Run.tighten`: Move one number onto one side of a variable.
* `Run.impose`: Move both bounds of a constraint onto its variable.
* `Run.deactivate`: Switch a constraint off.
* `Run.repair`: Move a value between the bounds of its variable.
* `Run.visit`: Look at one constraint.
* `Pass.visitAll`: Look at some constraints one after the other.
* `Outcome`: What a run leaves behind.
* `Pass.run`: Look at all active constraints of a model.
* `Pass.runOnCopy`: The changed model and the report, if the run succeeds.
-/

namespace Presolve

/-- The state of a run. -/
structure Run (α : Type) where
  model : Model α
  report : Report α := {}
  events : List (Event α) := []

/-- A run that failed, as it stood at that point. -/
structure Stopped (α : Type) where
  reason : FoldError α
  run : Run α

namespace Run

variable {α : Type} [Scalar α]

/-- Replace a bound of a variable that was `previous`, and tell of it. -/
def recordBound (r : Run α) (constraint : ConstraintId) (var : VariableId) (side : Side)
    (previous : Option α) (current : α) : Except (FoldError α) (Run α) :=
  match r.model.setBound var side (some current) with
  | .error e => .error (.model e)
  | .ok model =>
    let update : BoundUpdate α := { constraint, var, side, previous, current }
    .ok {
      model
      report := { r.report with boundUpdates := r.report.boundUpdates ++ [update] }
      events := r.events ++
        [.boundTightened var (model.varNames.name? var) side previous current] }

/-- Make `candidate` the bound of a variable on one side if it is more
    restrictive than the one there. -/
def tighten (r : Run α) (constraint : ConstraintId) (var : VariableId) (side : Side)
    (candidate : α) : Except (FoldError α) (Run α) :=
  if side.isUnbounding candidate then
    .ok r
  else if !Scalar.isFinite candidate then
    .error (.unsatisfiableBound constraint candidate)
  else
    match r.model.variableAt var with
    | .error e => .error (.model e)
    | .ok v =>
      let previous := v.bounds.get side
      let current := previous.elim candidate (side.tighter · candidate)
      if previous == some current then
        .ok r
      else
        r.recordBound constraint var side previous current

/-- Move the bound of a constraint on one side of `k * x + c`, if there is one,
    onto the variable `x`. -/
def tightenImplied (r : Run α) (constraint : ConstraintId) (var : VariableId) (k c : α)
    (side : Side) (bounds : Bounds α) : Except (FoldError α) (Run α) :=
  match bounds.get side with
  | none => .ok r
  | some b => r.tighten constraint var (side.scaled k) ((b - c) / k)

/-- Move the bounds of a constraint on `k * x + c` onto the variable `x`, the
    upper one first. If the second one cannot be moved, the first one stays
    moved. -/
def impose (r : Run α) (constraint : ConstraintId) (var : VariableId) (k c : α)
    (bounds : Bounds α) : Except (Stopped α) (Run α) :=
  match r.tightenImplied constraint var k c .upper bounds with
  | .error reason => .error ⟨reason, r⟩
  | .ok half =>
    match half.tightenImplied constraint var k c .lower bounds with
    | .error reason => .error ⟨reason, half⟩
    | .ok both => .ok both

/-- Deactivate a constraint about one variable, and tell of it. -/
def deactivate (r : Run α) (constraint : ConstraintId) (var : VariableId) (k : α)
    (degenerate : Bool) : Except (FoldError α) (Run α) :=
  match r.model.setConstraintActive constraint false with
  | .error e => .error (.model e)
  | .ok model =>
    .ok {
      model
      report := { r.report with deactivated := r.report.deactivated + 1 }
      events := r.events ++
        [.constraintDeactivated constraint (model.constraintNames.name? constraint)
          var (model.varNames.name? var) k degenerate] }

/-- Replace the value of a variable that was `previous`, and tell of it. -/
def recordValue (r : Run α) (var : VariableId) (previous current : α) :
    Except (FoldError α) (Run α) :=
  match r.model.setValue var (some current) with
  | .error e => .error (.model e)
  | .ok model =>
    .ok {
      model
      report := { r.report with
        valueRepairs := r.report.valueRepairs ++ [{ var, previous, current }] }
      events := r.events ++
        [.valueMoved var (model.varNames.name? var) previous current] }

/-- Move the value of a variable, if it has one, between its bounds. -/
def repair (r : Run α) (var : VariableId) : Except (FoldError α) (Run α) :=
  match r.model.variableAt var with
  | .error e => .error (.model e)
  | .ok v =>
    match v.value with
    | none => .ok r
    | some previous =>
      let current := v.bounds.clamp previous
      if current == previous then .ok r else r.recordValue var previous current

/-- Count a constraint as looked at. -/
def countVisit (r : Run α) : Run α :=
  { r with report := { r.report with visited := r.report.visited + 1 } }

/-- Count a deactivated constraint as degenerate. -/
def countDegenerate (r : Run α) : Run α :=
  { r with report := { r.report with degenerate := r.report.degenerate + 1 } }

/-- Leave a constraint alone because of a product of unknowns. -/
def skipNonlinear (r : Run α) (constraint : ConstraintId) (degree : Nat) : Run α :=
  { r with
    report := { r.report with skippedNonlinear := r.report.skippedNonlinear + 1 }
    events := r.events ++ [.nonlinearSkipped constraint degree] }

/-- Leave a constraint alone because it does not speak of exactly one
    variable. -/
def skipNonSingle (r : Run α) (constraint : ConstraintId) (vars : Nat) : Run α :=
  { r with
    report := { r.report with skippedNonSingle := r.report.skippedNonSingle + 1 }
    events := r.events ++ [.nonSingleSkipped constraint vars] }

/-- Fold a constraint on `k * x + c` into the variable `x`. -/
def foldSingle (p : Pass α) (r : Run α) (constraint : ConstraintId) (var : VariableId) (k c : α)
    (bounds : Bounds α) : Except (Stopped α) (Run α) :=
  let degenerate := p.isDegenerate k
  let imposed :=
    if degenerate then .ok r.countDegenerate else r.impose constraint var k c bounds
  match imposed with
  | .error stopped => .error stopped
  | .ok bounded =>
    match bounded.deactivate constraint var k degenerate with
    | .error reason => .error ⟨reason, bounded⟩
    | .ok done =>
      match done.repair var with
      | .error reason => .error ⟨reason, done⟩
      | .ok repaired => .ok repaired

/-- Look at one constraint, and fold it if it is about a single variable. -/
def visit (p : Pass α) (r : Run α) (constraint : ConstraintId) : Except (Stopped α) (Run α) :=
  let r := r.countVisit
  match r.model.constraintAt constraint with
  | .error e => .error ⟨.model e, r⟩
  | .ok c =>
    match p.reduce c.body r.model.fixedValue with
    | .error e => .error ⟨.poly e, r⟩
    | .ok (.nonlinear degree) => .ok (r.skipNonlinear constraint degree)
    | .ok (.linear form) =>
      match form.singleTerm with
      | none => .ok (r.skipNonSingle constraint form.terms.length)
      | some (var, k) => r.foldSingle p constraint var k form.constant c.bounds

/-- The event that sums up a run. -/
def summary (r : Run α) : Event α :=
  .runFinished r.report.visited r.report.deactivated r.report.degenerate
    r.report.boundUpdates.length r.report.valueRepairs.length

end Run

/-- What a run leaves behind, whether or not it came to its end. -/
structure Outcome (α : Type) where
  result : Except (FoldError α) (Report α)
  model : Model α
  events : List (Event α)

namespace Pass

variable {α : Type} [Scalar α]

/-- The constraints a run looks at, in their order. -/
def candidates (p : Pass α) (m : Model α) : List ConstraintId :=
  (m.activeConstraints p.config.descendInto).toList

/-- Look at constraints one after the other until one fails. -/
def visitAll (p : Pass α) (r : Run α) (ids : List ConstraintId) : Except (Stopped α) (Run α) :=
  ids.foldlM (Run.visit p) r

/-- Fold all active constraints of a model that are about a single variable. -/
def run (p : Pass α) (m : Model α) : Outcome α :=
  match p.visitAll { model := m } (p.candidates m) with
  | .error stopped => ⟨.error stopped.reason, stopped.run.model, stopped.run.events⟩
  | .ok r => ⟨.ok r.report, r.model, r.events ++ [r.summary]⟩

/-- The model after a run that succeeds, with the report. The model given stays
    as it is. -/
def runOnCopy (p : Pass α) (m : Model α) :
    Logged α (Except (FoldError α) (Model α × Report α)) :=
  let outcome := p.run m
  ⟨outcome.result.map fun report => (outcome.model, report), outcome.events⟩

end Pass

end Presolve
