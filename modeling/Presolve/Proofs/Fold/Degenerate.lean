import Presolve.Proofs.Fold.Equivalence
import Presolve.Proofs.Scalar.Double

/-!
# Degenerate Constraints

A single whose coefficient is zero puts its constant between its bounds, whatever its variable
is. Either the constant lies there and the constraint says nothing, or it does not and no
assignment satisfies the constraint. A run does not ask which. It looks at the coefficient
before it looks at the bounds, so `0 * x + 5 ≤ 3` is switched off like `0 * x + 5 ≤ 10`. This is
unlike a number that no value of the variable can respect, at which a run stops and leaves the
constraint on.

So a run drops contradictions just where the model has some. With a tolerance of zero they are
also all that it loses. An assignment is feasible before the run if and only if it is feasible
afterwards and every constant that was dropped lies between its bounds.

## Main definitions

* `Single.IsConstant`: The coefficient of a single is zero.
* `Pass.Drops`: A run switches a single off.

## Theorems

* `Pass.drops_iff`: A run that succeeds drops the singles among its candidates.
* `Pass.contains_of_drops_iff`: When all constants that are dropped lie between their bounds.
* `Pass.drops_contradiction`: A run that drops a constant which does not.
* `Pass.feasible_iff_run`: What a run loses with a tolerance of zero.
-/

namespace Presolve

variable {α : Type} [Scalar α]

/-- The coefficient is zero, and only the constant is left of the body. -/
def Single.IsConstant (s : Single α) : Prop := (s.coefficient == 0) = true

/-- The single is what its constraint is found to be. The constraint is on before a run and off
    after it. -/
def Pass.Drops (p : Pass α) (m : Model α) (s : Single α) : Prop :=
  p.finding m s.constraint = .ok (.single s) ∧ m.isActive s.constraint = true ∧
    (p.run m).model.isActive s.constraint = false

namespace Pass

/-- No bound comes of a constant. -/
theorem imposed_of_isConstant {s : Single α} (h : s.IsConstant) (p : Pass α) :
    p.imposed s = {} := by
  have hdegenerate : p.isDegenerate s.coefficient = true := by
    rw [isDegenerate, show (s.coefficient == 0) = true from h, Bool.true_or]
  rw [imposed, if_pos hdegenerate]

section Dropping

variable [OrderedScalar α] {p : Pass α} {m : Model α}

/-- What a run that succeeds has dropped are the singles that it looked at. -/
theorem drops_iff (hp : p.reduce = Poly.reduce) (hm : m.Sound) {report : Report α}
    (h : (p.run m).result = .ok report) {s : Single α} : p.Drops m s ↔ s ∈ p.foldable m := by
  have hswitch (id : ConstraintId) : (p.run m).model.isActive id
      = (m.isActive id && !(p.foldable m).any (·.constraint.index == id.index)) := by
    rw [model_of_run hp hm h, isActive_foldAll]
  constructor
  · -- Only a run's own singles go off, and those are among its candidates.
    rintro ⟨hfinding, hon, hoff⟩
    rw [hswitch, hon, Bool.true_and, Bool.not_eq_false'] at hoff
    exact mem_singles.mpr ⟨s.constraint, (any_singles.mp hoff).1, hfinding⟩
  · intro hs
    rcases mem_singles.mp hs with ⟨id, hid, hfinding⟩
    rw [← constraint_of_finding hfinding] at hid hfinding
    refine ⟨hfinding, Model.isActive_of_mem_activeConstraints hid, ?_⟩
    rw [hswitch, foldable, any_singles.mpr ⟨hid, s, hfinding⟩, Bool.not_true, Bool.and_false]

/-- A run drops every constant that it looks at, and no bound comes of it. So all constants that
    are dropped lie between their bounds if and only if all do that the run looks at. -/
theorem contains_of_drops_iff (hp : p.reduce = Poly.reduce) (hm : m.Reachable) {report : Report α}
    (h : (p.run m).result = .ok report) :
    (∀ s ∈ p.foldable m, s.IsConstant → p.Drops m s ∧ p.imposed s = {}) ∧
      ((∀ s, p.Drops m s → s.IsConstant → s.bounds.Contains s.constant) ↔
        ∀ id ∈ p.candidates m, ∀ s, p.finding m id = .ok (.single s) → s.IsConstant →
          s.bounds.Contains s.constant) := by
  have hdrops {s : Single α} := drops_iff hp hm.sound h (s := s)
  refine ⟨fun s hs hconstant => ⟨hdrops.mpr hs, imposed_of_isConstant hconstant p⟩, ?_⟩
  constructor
  · intro hall id hid s hfinding hconstant
    exact hall s (hdrops.mpr (mem_singles.mpr ⟨id, hid, hfinding⟩)) hconstant
  · intro hall s hs hconstant
    rcases mem_singles.mp (hdrops.mp hs) with ⟨id, hid, hfinding⟩
    exact hall id hid s hfinding hconstant

end Dropping

/-- The constraint `0 * x + 5 ≤ 10` is dropped and says nothing. -/
theorem contains_of_drops_iff_satisfied :
    ∃ (m : Model Float) (p : Pass Float) (report : Report Float),
      m = (Model.empty : Model Float).after [.addVariable {},
        .addConstraintTo rootBlock ⟨5, [⟨#v[⟨0⟩], 0⟩], [], []⟩ ⟨none, some 10⟩] ∧
      p.config.zeroTolerance = 0 ∧ (p.run m).result = .ok report ∧ report.degenerate = 1 ∧
      ∀ s, p.Drops m s → s.IsConstant → s.bounds.Contains s.constant := by
  set m := (Model.empty : Model Float).after [.addVariable {},
    .addConstraintTo rootBlock ⟨5, [⟨#v[⟨0⟩], 0⟩], [], []⟩ ⟨none, some 10⟩] with hm
  let p : Pass Float := ⟨{ zeroTolerance := 0 }, Poly.reduce, by decide⟩
  rcases exists_ok_of_isOk (show (p.run m).result.isOk = true by decide +kernel) with ⟨report, h⟩
  have hcount : (p.run m).result.toOption.map (·.degenerate) = some 1 := by decide +kernel
  rw [h] at hcount
  refine ⟨m, p, report, rfl, rfl, h, Option.some.inj hcount, ?_⟩
  refine (contains_of_drops_iff rfl ⟨_, hm.symm⟩ h).2.mpr fun id hid s hfinding _ => ?_
  have hcandidates : p.candidates m = [⟨0⟩] := by decide +kernel
  have hread : (p.single? m ⟨0⟩).all (fun s => s.bounds.lower.all (fun l => decide (l ≤ s.constant))
      && s.bounds.upper.all fun u => decide (s.constant ≤ u)) = true := by decide +kernel
  rw [hcandidates, List.mem_singleton] at hid
  rw [← hid, single?_eq_some.mpr hfinding] at hread
  simpa [Bounds.Contains, Option.all_eq_true] using hread

/-- The constraint `0 * x + 5 ≤ 3` is dropped although no value of `x` satisfies it. -/
theorem drops_contradiction :
    ∃ (m : Model Float) (p : Pass Float) (report : Report Float) (s : Single Float),
      m = (Model.empty : Model Float).after [.addVariable {},
        .addConstraintTo rootBlock ⟨5, [⟨#v[⟨0⟩], 0⟩], [], []⟩ ⟨none, some 3⟩] ∧
      p.config.zeroTolerance = 0 ∧ p.reduce = Poly.reduce ∧ m.Reachable ∧
      (p.run m).result = .ok report ∧ p.Drops m s ∧ s.IsConstant ∧
      ¬ s.bounds.Contains s.constant := by
  set m := (Model.empty : Model Float).after [.addVariable {},
    .addConstraintTo rootBlock ⟨5, [⟨#v[⟨0⟩], 0⟩], [], []⟩ ⟨none, some 3⟩] with hm
  let p : Pass Float := ⟨{ zeroTolerance := 0 }, Poly.reduce, by decide⟩
  rcases exists_ok_of_isOk (show (p.run m).result.isOk = true by decide +kernel) with ⟨report, h⟩
  have hread : (p.single? m ⟨0⟩).any (fun s => s.coefficient == 0
      && s.bounds.upper.any fun u => !decide (s.constant ≤ u)) = true := by decide +kernel
  rcases hs : p.single? m ⟨0⟩ with _ | s
  · rw [hs] at hread
    cases hread
  · rw [hs, Option.any_some, Bool.and_eq_true] at hread
    have hfinding := single?_eq_some.mp hs
    have hconstraint := constraint_of_finding hfinding
    rw [← hconstraint] at hfinding
    have hdrops : p.Drops m s :=
      ⟨hfinding, by rw [hconstraint]; decide +kernel, by rw [hconstraint]; decide +kernel⟩
    refine ⟨m, p, report, s, rfl, rfl, rfl, ⟨_, hm.symm⟩, h, hdrops, hread.1, fun hcontains => ?_⟩
    rcases (Option.any_eq_true _ _).mp hread.2 with ⟨u, hu, hlt⟩
    simp [hcontains.2 u hu] at hlt

section Exact

variable {p : Pass ℚ} {m : Model ℚ}

/-- With a tolerance of zero only zero is degenerate. -/
theorem isDegenerate_iff (hzero : p.config.zeroTolerance = 0) {k : ℚ} :
    p.isDegenerate k = true ↔ k = 0 := by
  -- No absolute value is less than zero, so the tolerance adds nothing.
  have habs : ¬ Scalar.abs k < 0 := by
    unfold Scalar.abs
    split <;> linarith
  simp [isDegenerate, hzero, habs]

/-- A run with a tolerance of zero keeps the feasible assignments. It gains those that satisfy
    all but a constant that was dropped without lying between its bounds. -/
theorem feasible_iff_run (hp : p.reduce = Poly.reduce) (hm : m.Reachable)
    (hzero : p.config.zeroTolerance = 0) {report : Report ℚ}
    (h : (p.run m).result = .ok report) (x : Assignment ℚ) :
    m.Feasible x ↔ (p.run m).model.Feasible x ∧
      ∀ s, p.Drops m s → s.IsConstant → s.bounds.Contains s.constant := by
  have hconstant {s : Single ℚ} (hs : s.IsConstant) :
      s.Holds x ↔ s.bounds.Contains s.constant := by
    rw [Single.Holds, show s.coefficient = 0 from beq_iff_eq.mp hs, zero_mul, zero_add]
  constructor
  · intro hx
    refine ⟨?_, fun s hs hzero => (hconstant hzero).mp ?_⟩
    · rw [model_of_run hp hm.sound h]
      exact feasible_foldAll hp hm.sound (accepts_of_run hp hm.sound h) hx
    · exact holds_of_feasible hp hx ((drops_iff hp hm.sound h).mp hs)
  · -- The singles that imposed no bound are the constants, and those hold by assumption.
    rintro ⟨hx, hdropped⟩
    rw [model_of_run hp hm.sound h] at hx
    refine feasible_of_foldAll_of_holds hp hm.sound (accepts_of_run hp hm.sound h) ?_ hx
    intro s hs hdegenerate
    have hzero : s.IsConstant := beq_iff_eq.mpr ((isDegenerate_iff hzero).mp hdegenerate)
    exact (hconstant hzero).mpr (hdropped s ((drops_iff hp hm.sound h).mpr hs) hzero)

end Exact

end Pass

end Presolve
