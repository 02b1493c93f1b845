import Presolve.Event
import Presolve.Model.Basic

/-!
# Building and Editing Models

Every change of a model goes through one of the operations below. Each either
gives the changed model or says why it is refused, and a refusal changes
nothing. What they keep up is that a model holds no NaN outside the bodies of
its constraints, that a fixed variable has a value, that a body refers only to
variables of the model, and that siblings have different names.

Bounds given together, as with a new variable or constraint, may not be crossed.
Bounds changed one at a time are not compared, so a variable may end up with a
lower bound above its upper one.

## Main definitions

* `Model.addVariable`, `Model.addConstraintTo`, `Model.addBlock`: New entries.
* `Model.setBound`, `Model.setValue`: Changes to a variable.
* `Model.fix`, `Model.unfix`: Whether a variable stands for its value.
* `Model.setConstraintActive`, `Model.setBlockActive`: The switches.
* `Model.nameVariable`, `Model.nameConstraint`: Names.
-/

namespace Presolve

namespace Model

variable {α : Type}

/-- Apply a change to the variable with an id, if there is one. -/
def modifyVariable (m : Model α) (id : VariableId) (f : Variable α → Variable α) : Model α :=
  { m with vars := m.vars.modify id.index f }

/-- Apply a change to the constraint with an id, if there is one. -/
def modifyConstraint (m : Model α) (id : ConstraintId) (f : Constraint α → Constraint α) :
    Model α :=
  { m with constraints := m.constraints.modify id.index f }

/-- Apply a change to the block with an id, if there is one. -/
def modifyBlock (m : Model α) (id : BlockId) (f : Block → Block) : Model α :=
  { m with blocks := m.blocks.modify id.index f }

/-- Switch a block on or off. What is below it keeps its own switches. -/
def setBlockActive (m : Model α) (id : BlockId) (active : Bool) :
    Except (ModelError α) (Model α) := do
  let _ ← m.blockAt id
  return m.modifyBlock id fun b => { b with active }

/-- Switch a constraint on or off. -/
def setConstraintActive (m : Model α) (id : ConstraintId) (active : Bool) :
    Except (ModelError α) (Model α) := do
  let _ ← m.constraintAt id
  return m.modifyConstraint id fun c => { c with active }

/-- Release a fixed variable. It keeps its value. -/
def unfix (m : Model α) (id : VariableId) : Except (ModelError α) (Model α) := do
  let _ ← m.variableAt id
  return m.modifyVariable id fun v => { v with fixed := false }

/-- Give a variable a name. -/
def nameVariable (m : Model α) (id : VariableId) (name : String) :
    Except (ModelError α) (Model α) := do
  let _ ← m.variableAt id
  return { m with varNames := m.varNames.assign id name }

/-- Give a constraint a name. -/
def nameConstraint (m : Model α) (id : ConstraintId) (name : String) :
    Except (ModelError α) (Model α) := do
  let _ ← m.constraintAt id
  return { m with constraintNames := m.constraintNames.assign id name }

/-- Some child of a block has this name. -/
def hasChildNamed (m : Model α) (parent : Block) (name : String) : Bool :=
  parent.children.any fun child => m.blocks[child.index]?.any (·.name == name)

/-- Add an empty block under a parent, unless a sibling has its name. -/
def addBlock (m : Model α) (parent : BlockId) (name : String) :
    Logged α (Except (ModelError α) (BlockId × Model α)) :=
  match m.blockAt parent with
  | .error e => ⟨.error e, []⟩
  | .ok p =>
    if m.hasChildNamed p name then
      ⟨.error (.duplicateBlockName name), []⟩
    else
      let id : BlockId := .ofIndex m.blocks.size
      let grown : Model α := { m with blocks := m.blocks.push { name, parent := some parent } }
      let linked := grown.modifyBlock parent fun b => { b with children := b.children ++ [id] }
      ⟨.ok (id, linked), [.blockAdded id parent name]⟩

variable [Scalar α]

/-- Add a variable. Infinite bounds are left out. -/
def addVariable (m : Model α) (v : Variable α) :
    Except (ModelError α) (VariableId × Model α) :=
  let bounds := v.bounds.dropInfinite
  if bounds.hasNaN || bounds.crossed then
    .error (.invalidVariableBounds bounds)
  else
    match v.value.filter Scalar.isNaN with
    | some x => .error (.invalidValue x)
    | none =>
      if v.fixed && v.value.isNone then
        .error .fixedWithoutValue
      else
        .ok (.ofIndex m.vars.size,
          { m with vars := m.vars.push { v with bounds } })

/-- The first variable of a list that the model does not have. -/
def missing? (m : Model α) (ids : List VariableId) : Option VariableId :=
  ids.find? fun id => m.vars.size ≤ id.index

/-- Add a constraint to a block. -/
def addConstraintTo (m : Model α) (block : BlockId) (r : Ranged α) :
    Except (ModelError α) (ConstraintId × Model α) := do
  let _ ← m.blockAt block
  if r.bounds.hasNaN || r.bounds.crossed then
    .error (.invalidConstraintBounds r.bounds)
  else
    match m.missing? r.body.vars with
    | some id => .error (.unknownVariable id)
    | none =>
      let id : ConstraintId := .ofIndex m.constraints.size
      let grown : Model α := { m with constraints := m.constraints.push { r with } }
      .ok (id, grown.modifyBlock block fun b => { b with constraints := b.constraints ++ [id] })

/-- Add a constraint to the root block. -/
def addConstraint (m : Model α) (r : Ranged α) : Except (ModelError α) (ConstraintId × Model α) :=
  m.addConstraintTo rootBlock r

/-- Replace one bound of a variable. Only the infinity that restricts nothing on
    this side is left out, and the other bound is not looked at. -/
def setBound (m : Model α) (id : VariableId) (side : Side) (x : Option α) :
    Except (ModelError α) (Model α) := do
  let v ← m.variableAt id
  if x.any Scalar.isNaN then
    .error (.invalidVariableBounds (v.bounds.set side x))
  else
    return m.modifyVariable id fun v =>
      { v with bounds := v.bounds.set side (x.filter (!side.isUnbounding ·)) }

/-- Replace the value of a variable. A value that is no number is refused even
    where there is no such variable. -/
def setValue (m : Model α) (id : VariableId) (x : Option α) :
    Except (ModelError α) (Model α) :=
  match x.filter Scalar.isNaN with
  | some nan => .error (.invalidValue nan)
  | none => do
    let v ← m.variableAt id
    if v.fixed && x.isNone then
      .error .fixedWithoutValue
    else
      return m.modifyVariable id fun v => { v with value := x }

/-- Fix a variable at a value. -/
def fix (m : Model α) (id : VariableId) (x : α) : Except (ModelError α) (Model α) := do
  let valued ← m.setValue id (some x)
  return valued.modifyVariable id fun v => { v with fixed := true }

end Model

end Presolve
