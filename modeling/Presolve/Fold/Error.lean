import Presolve.Model.Error

/-!
# Faults of Passes

Why a pass cannot be set up or does not come to its end. The faults of models
and of polynomials show through with their own codes and texts, and such a fault
names the one it wraps as its source.

## Main definitions

* `FoldError`: The five causes.
* `FoldError.code`: A stable word for each of them.
* `FoldError.message`: The text shown to a reader.
* `FoldError.source?`: The text of a wrapped fault.
-/

namespace Presolve

/-- Why a pass fails. -/
inductive FoldError (α : Type) where
  /-- An operation on the model was refused. -/
  | model (e : ModelError α)
  /-- A body could not be reduced. -/
  | poly (e : PolyError α)
  /-- No pass has this name. -/
  | unknownPass (name : String)
  /-- A tolerance is negative or not finite. -/
  | invalidTolerance (tolerance : α)
  /-- A constraint implies a bound that no finite value satisfies. -/
  | unsatisfiableBound (constraint : ConstraintId) (bound : α)

namespace FoldError

/-- The code of a fault. -/
def code {α : Type} : FoldError α → String
  | model e => e.code
  | poly e => e.code
  | unknownPass _ => "TRANSFORM_UNKNOWN"
  | invalidTolerance _ => "TRANSFORM_INVALID_TOLERANCE"
  | unsatisfiableBound _ _ => "TRANSFORM_UNSATISFIABLE_BOUND"

/-- The text of a fault. -/
def message (e : FoldError Float) : String :=
  match e with
  | model inner => inner.message
  | poly inner => inner.message
  | unknownPass name => withCode e.code ("No transformation named '" ++ name ++ "'")
  | invalidTolerance tolerance =>
    withCode e.code
      ("Zero tolerance must be finite and non-negative (got " ++ Layout.message.render tolerance
        ++ ")")
  | unsatisfiableBound constraint bound =>
    withCode e.code
      ("Constraint " ++ toString constraint ++ " implies the bound " ++ Layout.message.render bound)

/-- The text of the fault that caused this one, if it wraps another. -/
def source? : FoldError Float → Option String
  | model inner => some inner.message
  | poly inner => some inner.message
  | _ => none

end FoldError

end Presolve
