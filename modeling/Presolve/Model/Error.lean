import Presolve.Id
import Presolve.Poly.Error

/-!
# Faults of Models

Why an operation on a model is refused. Each cause carries what its message
shows, and a refused operation leaves the model alone.

## Main definitions

* `ModelError`: The eight causes.
* `ModelError.code`: A stable word for each of them.
* `ModelError.message`: The text shown to a reader.
-/

namespace Presolve

/-- Why an operation on a model is refused. -/
inductive ModelError (α : Type) where
  /-- There is no such variable. -/
  | unknownVariable (id : VariableId)
  /-- A bound of a variable is NaN, or its bounds are crossed. -/
  | invalidVariableBounds (bounds : Bounds α)
  /-- The value given for a variable is no number. -/
  | invalidValue (value : α)
  /-- A fixed variable would have no value to be fixed at. -/
  | fixedWithoutValue
  /-- There is no such constraint. -/
  | unknownConstraint (id : ConstraintId)
  /-- A bound of a constraint is NaN, or its bounds are crossed. -/
  | invalidConstraintBounds (bounds : Bounds α)
  /-- There is no such block. -/
  | unknownBlock (id : BlockId)
  /-- A sibling of a new block already has its name. -/
  | duplicateBlockName (name : String)

namespace ModelError

/-- The code of a fault. -/
def code {α : Type} : ModelError α → String
  | unknownVariable _ => "VARIABLE_INVALID_ID"
  | invalidVariableBounds _ => "VARIABLE_INVALID_BOUNDS"
  | invalidValue _ => "VARIABLE_INVALID_VALUE"
  | fixedWithoutValue => "VARIABLE_FIXED_WITHOUT_VALUE"
  | unknownConstraint _ => "CONSTRAINT_INVALID_ID"
  | invalidConstraintBounds _ => "CONSTRAINT_INVALID_BOUNDS"
  | unknownBlock _ => "BLOCK_INVALID_ID"
  | duplicateBlockName _ => "BLOCK_DUPLICATE_NAME"

/-- The text of a fault. -/
def message (e : ModelError Float) : String :=
  withCode e.code <|
    match e with
    | unknownVariable id => "Variable ID " ++ toString id ++ " does not exist"
    | invalidVariableBounds bounds => bounds.complaint "Variable bounds"
    | invalidValue value =>
      "Variable value must be a number (got " ++ Layout.message.render value ++ ")"
    | fixedWithoutValue => "Fixed variable must have a value"
    | unknownConstraint id => "Constraint ID " ++ toString id ++ " does not exist"
    | invalidConstraintBounds bounds => bounds.complaint "Constraint bounds"
    | unknownBlock id => "Block ID " ++ toString id ++ " does not exist"
    | duplicateBlockName name => "Block '" ++ name ++ "' already exists"

end ModelError

end Presolve
