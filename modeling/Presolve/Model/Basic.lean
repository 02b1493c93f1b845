import Presolve.Linear.Reduce
import Presolve.Model.Error
import Presolve.Model.Names
import Presolve.Poly.Ranged

/-!
# Models

An optimization model is a set of variables, a set of constraints on them and a
tree of blocks that groups the constraints. The three registries are arrays, and
an entry is known by its position. Every model has a root block at position
zero, and a block knows its parent and its children.

## Main definitions

* `Variable`, `Constraint`, `Block`: The entries of the registries.
* `Model`: The registries and the names given to entries.
* `Model.empty`: The model with nothing but a root block.
* `Model.variableAt`, `Model.constraintAt`, `Model.blockAt`: The entry of an id,
  or the fault that there is none.
* `Model.fixedValue`: The number a variable is fixed at.
* `Model.isActive`: A constraint exists and is active.
-/

namespace Presolve

/-- A decision variable. -/
structure Variable (α : Type) where
  bounds : Bounds α := {}
  value : Option α := none
  /-- The variable stands for its value and is not to be decided. -/
  fixed : Bool := false

/-- A ranged polynomial with a switch. -/
structure Constraint (α : Type) extends Ranged α where
  active : Bool := true

/-- A named group of constraints and of further blocks. -/
structure Block where
  name : String
  parent : Option BlockId
  constraints : List ConstraintId := []
  children : List BlockId := []
  active : Bool := true

/-- The block every model starts with. -/
def rootBlock : BlockId := ⟨0⟩

/-- An optimization model. -/
structure Model (α : Type) where
  vars : Array (Variable α)
  constraints : Array (Constraint α)
  blocks : Array Block
  varNames : NameTable .vars
  constraintNames : NameTable .constraints

namespace Model

variable {α : Type}

/-- The model with nothing but a root block. -/
def empty : Model α where
  vars := #[]
  constraints := #[]
  blocks := #[{ name := "", parent := none }]
  varNames := .empty
  constraintNames := .empty

/-- The variable with an id. -/
def variableAt (m : Model α) (id : VariableId) : Except (ModelError α) (Variable α) :=
  match m.vars[id.index]? with
  | some v => .ok v
  | none => .error (.unknownVariable id)

/-- The constraint with an id. -/
def constraintAt (m : Model α) (id : ConstraintId) : Except (ModelError α) (Constraint α) :=
  match m.constraints[id.index]? with
  | some c => .ok c
  | none => .error (.unknownConstraint id)

/-- The block with an id. -/
def blockAt (m : Model α) (id : BlockId) : Except (ModelError α) Block :=
  match m.blocks[id.index]? with
  | some b => .ok b
  | none => .error (.unknownBlock id)

/-- The number a variable is fixed at. A variable that does not exist or is not
    fixed is an unknown. -/
def fixedValue (m : Model α) : FixedValues α := fun id =>
  (m.vars[id.index]?.filter (·.fixed)).bind (·.value)

/-- The constraint exists and its switch is on. -/
def isActive (m : Model α) (id : ConstraintId) : Bool :=
  m.constraints[id.index]?.any (·.active)

end Model

end Presolve
