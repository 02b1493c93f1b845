import Presolve.Proofs.Fold.Repeat
import Presolve.Proofs.Poly.Overflow

/-!
# Runs and Overflow

That a run keeps every constraint whose body overflows. A run switches a constraint off
because its body came to a linear form with one term, and what overflows comes to no linear
form at all. It is refused, or it is left alone if a product hides what it overflowed to. A
variable that is fixed at infinity is the simplest case. It may stand in any term, with a
coefficient of zero as well, and next to a factor that is fixed at zero.

This holds of runs that fail too, as they switch nothing else off before they stop.

## Theorems

* `Pass.single_of_switched_off`: What a run switches off was a single.
* `Pass.isActive_run_of_overflows`: A run keeps a constraint whose body overflows.
-/

namespace Presolve

open Scalar

variable {α : Type} [Scalar α]

namespace Pass

variable [MonotoneScalar α] {p : Pass α} {m : Model α}

/-- A constraint that a run switches off was found to be a single. -/
theorem single_of_switched_off (hp : p.reduce = Poly.reduce) (hm : m.Sound) {id : ConstraintId}
    (hchanged : (p.run m).model.isActive id ≠ m.isActive id) :
    ∃ s, p.finding m id = .ok (.single s) := by
  rw [model_run hp hm, isActive_foldAll] at hchanged
  have hfolded : (p.singles m (p.settled m)).any (·.constraint.index == id.index) = true := by
    by_contra hnot
    rw [Bool.not_eq_true] at hnot
    rw [hnot, Bool.not_false, Bool.and_true] at hchanged
    exact hchanged rfl
  exact (any_singles.mp hfolded).2

/-- What overflows comes to no linear form, so a run keeps a constraint with such a body. -/
theorem isActive_run_of_overflows [AbsorbingScalar α] :
    (∀ (fixed : FixedValues α) (body : Poly α), body.Overflows fixed →
      ∀ form, body.reduce fixed ≠ .ok (.linear form)) ∧
    ∀ (p : Pass α) (m : Model α), p.reduce = Poly.reduce → m.Reachable →
      ∀ (id : ConstraintId) (c : Constraint α), m.constraintAt id = .ok c →
        c.body.Overflows m.fixedValue → (p.run m).model.isActive id = m.isActive id := by
  refine ⟨fun fixed body => Poly.reduce_ne_linear, ?_⟩
  intro p m hp hm id c hc hoverflows
  by_contra hchanged
  rcases single_of_switched_off hp hm.sound hchanged with ⟨s, hs⟩
  rcases finding_eq_single hs with ⟨c', form, hc', hform, -⟩
  cases hc.symm.trans hc'
  rw [hp] at hform
  exact Poly.reduce_ne_linear hoverflows form hform

/-- A product of three factors with the coefficient zero has a variable in it that is fixed at
    infinity, and another one fixed at zero. The constraint speaks of a single free variable
    otherwise, and it is kept. The reduction refuses its body, so the run fails. -/
theorem isActive_run_of_overflows_hidden :
    ∃ (m : Model Float) (body : Poly Float),
      body = ⟨0, [⟨#v[⟨0⟩], 1⟩], [], [⟨#v[⟨1⟩, ⟨2⟩, ⟨1⟩], 0⟩]⟩ ∧
      m = (Model.empty : Model Float).after [.addVariable {},
        .addVariable { value := some (1 / 0), fixed := true },
        .addVariable { value := some 0, fixed := true },
        .addConstraintTo rootBlock body ⟨none, some 1⟩] ∧
      body.Overflows m.fixedValue ∧ (∀ form, body.reduce m.fixedValue ≠ .ok (.linear form)) ∧
      (standard.run m).result.isOk = false ∧ (standard.run m).model.isActive ⟨0⟩ = true := by
  set body : Poly Float := ⟨0, [⟨#v[⟨0⟩], 1⟩], [], [⟨#v[⟨1⟩, ⟨2⟩, ⟨1⟩], 0⟩]⟩
  set m := (Model.empty : Model Float).after [.addVariable {},
    .addVariable { value := some (1 / 0), fixed := true },
    .addVariable { value := some 0, fixed := true },
    .addConstraintTo rootBlock body ⟨none, some 1⟩] with hm
  have hc : m.constraintAt ⟨0⟩ = .ok { body, bounds := ⟨none, some 1⟩ } := by rfl
  have hoverflows : body.Overflows m.fixedValue :=
    Or.inl ⟨⟨1⟩, by decide +kernel, 1 / 0, by rfl, by decide +kernel⟩
  refine ⟨m, body, rfl, rfl, hoverflows, isActive_run_of_overflows.1 _ _ hoverflows,
    by decide +kernel, ?_⟩
  rw [isActive_run_of_overflows.2 standard m rfl ⟨_, hm.symm⟩ ⟨0⟩ _ hc hoverflows]
  decide +kernel

end Pass

end Presolve
