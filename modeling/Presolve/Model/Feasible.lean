import Presolve.Model.Walk

/-!
# Feasible Assignments

What a model means. An assignment is feasible if it gives every fixed variable
its value, stays within every bound of a variable and satisfies every
constraint that is active, counting a constraint as active only if all blocks
around it are. Two models with the same feasible assignments pose the same
problem.

## Main definitions

* `Variable.Admits`: A variable may take a value.
* `Model.Feasible`: An assignment is a solution of the model.
-/

namespace Presolve

variable {α : Type} [Scalar α]

/-- The value lies within the bounds of the variable and is the one it is fixed
    at, if it is fixed. -/
def Variable.Admits (v : Variable α) (x : α) : Prop :=
  v.bounds.Contains x ∧ (v.fixed → v.value = some x)

/-- The assignment respects all variables and all active constraints. -/
def Model.Feasible (m : Model α) (x : Assignment α) : Prop :=
  (∀ id v, m.variableAt id = .ok v → v.Admits (x id)) ∧
    ∀ id ∈ (m.activeConstraints true).toList, ∀ c, m.constraintAt id = .ok c →
      c.toRanged.Holds x

end Presolve
