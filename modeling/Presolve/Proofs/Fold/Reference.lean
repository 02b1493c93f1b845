import Presolve.Proofs.Fold.Result
import Presolve.Proofs.Scalar.Double

/-!
# Reference Results

What a run that succeeds comes to, said without a run. A foldable constraint
offers a number to each side of its variable for which it has a bound, unless
its coefficient is degenerate or the number is the infinity that restricts
nothing. All offers are read off the model the run starts from. Afterwards each
side of a variable holds the tightest of the number it had and the numbers
offered to it, and the foldable constraints are off.

The program gets there by visiting one constraint after another, each time
reducing a body in the model that the visits before have left and comparing with
the bounds that they have left. That this makes no difference is what the
theorem says.

## Main definitions

* `Pass.offers`: The numbers offered to one side of a variable.

## Theorems

* `Pass.filterMap_imposedOn`: The bounds imposed on a variable are its offers.
* `Pass.run_eq_reference`: Bounds and switches after a run that succeeds.
-/

namespace Presolve

open Scalar OrderedScalar

variable {α : Type} [Scalar α]

namespace Pass

/-- The numbers that the foldable constraints of a model offer to one side of a
    variable. -/
def offers (p : Pass α) (m : Model α) (var : VariableId) (side : Side) : List α :=
  (p.foldable m).filterMap fun s =>
    if s.var = var ∧ p.isDegenerate s.coefficient = false then
      (s.number side).filter (!side.isUnbounding ·)
    else
      none

variable {p : Pass α} {m : Model α}

theorem get_imposed (p : Pass α) (s : Single α) (side : Side) :
    (p.imposed s).get side = if p.isDegenerate s.coefficient = false then
      (s.number side).filter (!side.isUnbounding ·) else none := by
  rw [imposed]
  cases p.isDegenerate s.coefficient with
  | true => cases side <;> rfl
  | false => exact Bounds.get_ofSides _ side

/-- The bounds imposed on a variable hold the numbers offered to it. -/
theorem filterMap_imposedOn (p : Pass α) (m : Model α) (var : VariableId) (side : Side) :
    (p.imposedOn (p.foldable m) var.index).filterMap (·.get side) = p.offers m var side := by
  rw [offers]
  induction p.foldable m with
  | nil => rfl
  | cons s rest ih =>
      -- The first single is about this variable, or it offers nothing here.
      rw [imposedOn_cons, List.filterMap_cons, ← ih]
      by_cases hvar : s.var = var
      · rw [if_pos (congrArg Id.index hvar), List.filterMap_cons, get_imposed]
        simp only [hvar, true_and]
      · rw [if_neg fun h => hvar (Id.index_inj h), if_neg fun h => hvar h.1]

variable [OrderedScalar α]

/-- After a run that succeeds each side of a variable holds the tightest of the
    number it had and the numbers offered to it, and a constraint is on if it was
    on and is not a single among those that the run looked at. -/
theorem run_eq_reference (hp : p.reduce = Poly.reduce) (hm : m.Reachable) {report : Report α}
    (h : (p.run m).result = .ok report) :
    ((p.run m).model.vars.size = m.vars.size ∧
      ∀ id v, m.variableAt id = .ok v → ∃ v', (p.run m).model.variableAt id = .ok v' ∧
        ∀ side : Side, side.Tightest ((v.bounds.get side).toList ++ p.offers m id side)
          (v'.bounds.get side)) ∧
    ((p.run m).model.constraints.size = m.constraints.size ∧
      ∀ id c, m.constraintAt id = .ok c → ∃ c', (p.run m).model.constraintAt id = .ok c' ∧
        (c'.active = true ↔ c.active = true ∧
          ¬ (id ∈ p.candidates m ∧ ∃ s, p.finding m id = .ok (.single s)))) := by
  have hsound := hm.sound
  -- The model after the run is the first one with its singles folded.
  rw [model_of_run hp hsound h]
  refine ⟨⟨size_vars_foldAll .., fun id v hv => ?_⟩, size_constraints_foldAll .., fun id c hc => ?_⟩
  · rw [Model.variableAt_eq_ok] at hv
    refine ⟨v.imposeAll (p.imposedOn (p.foldable m) id.index), ?_, fun side => ?_⟩
    · rw [Model.variableAt_eq_ok, vars_foldAll, hv, Option.map_some]
    · rw [← filterMap_imposedOn]
      refine Variable.tightest_imposeAll ?_ (Side.tightest_toList ?_)
      · exact hasNaN_of_mem_imposedOn hp hsound (accepts_of_run hp hsound h)
      · exact (Bounds.hasNaN_iff _).mp (hsound.vars _ v hv).bounds side
  · rw [Model.constraintAt_eq_ok] at hc
    refine ⟨{ c with
      active := c.active && !(p.foldable m).any (·.constraint.index == id.index) }, ?_, ?_⟩
    · rw [Model.constraintAt_eq_ok, constraints_foldAll, hc, Option.map_some]
    · rw [← any_singles, Bool.and_eq_true, Bool.not_eq_true', Bool.not_eq_true]
      rfl

/-- The constraints `2 * x ≤ 6` and `-x ≤ 1` leave `x` between `-1` and `3`. -/
theorem run_eq_reference_opposite_signs :
    ∃ v, (standard.run (Model.empty.after [.addVariable {},
        .addConstraintTo rootBlock (.term ⟨0⟩ 2) ⟨none, some 6⟩,
        .addConstraintTo rootBlock (.term ⟨0⟩ (-1)) ⟨none, some 1⟩])).model.variableAt ⟨0⟩ = .ok v ∧
      Side.upper.Tightest [3] v.bounds.upper ∧ Side.lower.Tightest [-1] v.bounds.lower := by
  set m : Model Float := Model.empty.after [.addVariable {},
    .addConstraintTo rootBlock (.term ⟨0⟩ 2) ⟨none, some 6⟩,
    .addConstraintTo rootBlock (.term ⟨0⟩ (-1)) ⟨none, some 1⟩] with hm
  rcases exists_ok_of_isOk (show (standard.run m).result.isOk = true by decide +kernel) with
    ⟨report, h⟩
  rcases (run_eq_reference rfl ⟨_, hm.symm⟩ h).1.2 ⟨0⟩ {} rfl with ⟨v, hv, htightest⟩
  have hupper := htightest .upper
  have hlower := htightest .lower
  rw [show standard.offers m ⟨0⟩ .upper = [3] by decide +kernel] at hupper
  rw [show standard.offers m ⟨0⟩ .lower = [-1] by decide +kernel] at hlower
  exact ⟨v, hv, hupper, hlower⟩

end Pass

end Presolve
