import Presolve.Fold.Run

/-!
# Histories of Models

How a model came to be. A model is used only through the operations that build
and edit it and through runs of passes, so every model that can occur is the
empty one after some list of commands. What holds of the empty model and is kept
by every command therefore holds of every model.

A constraint is added as a body with bounds, the infinite ones being taken for
absent, since a ranged polynomial is never built in another way. A command that
is refused leaves the model alone. A run that fails leaves it as it stood at that
point.

## Main definitions

* `Command`: One use of a model.
* `Command.apply`: The model after it.
* `Model.after`: The model after a list of commands.
* `Model.Reachable`: The model is the empty one after some commands.
-/

namespace Presolve

/-- One use of a model, with all that is given for it. -/
inductive Command (α : Type) [Scalar α] where
  | addVariable (v : Variable α)
  | addConstraintTo (block : BlockId) (body : Poly α) (bounds : Bounds α)
  | addBlock (parent : BlockId) (name : String)
  | setBlockActive (id : BlockId) (active : Bool)
  | setBound (id : VariableId) (side : Side) (x : Option α)
  | setValue (id : VariableId) (x : Option α)
  | fix (id : VariableId) (x : α)
  | unfix (id : VariableId)
  | setConstraintActive (id : ConstraintId) (active : Bool)
  | nameVariable (id : VariableId) (name : String)
  | nameConstraint (id : ConstraintId) (name : String)
  | run (p : Pass α)

variable {α : Type} [Scalar α]

/-- The model after an operation, which is the model before it if the operation
    was refused. -/
def Model.orKeep {β : Type} (m : Model α) (result : Except (ModelError α) β)
    (changed : β → Model α) : Model α :=
  match result with
  | .ok x => changed x
  | .error _ => m

/-- The model after a command. -/
def Command.apply (m : Model α) : Command α → Model α
  | addVariable v => m.orKeep (m.addVariable v) (·.2)
  | addConstraintTo block body bounds =>
    m.orKeep (m.addConstraintTo block (.ofBounds body bounds)) (·.2)
  | addBlock parent name => m.orKeep (m.addBlock parent name).result (·.2)
  | setBlockActive id active => m.orKeep (m.setBlockActive id active) (·)
  | setBound id side x => m.orKeep (m.setBound id side x) (·)
  | setValue id x => m.orKeep (m.setValue id x) (·)
  | fix id x => m.orKeep (m.fix id x) (·)
  | unfix id => m.orKeep (m.unfix id) (·)
  | setConstraintActive id active => m.orKeep (m.setConstraintActive id active) (·)
  | nameVariable id name => m.orKeep (m.nameVariable id name) (·)
  | nameConstraint id name => m.orKeep (m.nameConstraint id name) (·)
  | run p => (p.run m).model

/-- The model after a list of commands. -/
def Model.after (m : Model α) (commands : List (Command α)) : Model α :=
  commands.foldl Command.apply m

/-- The model is the empty one after some commands. -/
def Model.Reachable (m : Model α) : Prop := ∃ commands, Model.empty.after commands = m

end Presolve
