import Mathlib.Data.List.TakeWhile
import Presolve.Proofs.Fold.Result

/-!
# Refusals

Why a run stops, and where. A pass refuses a constraint if it finds nothing at it,
because the body cannot be reduced, or if the constraint is a single with a usable
coefficient that implies a number no value can respect. Of two such numbers it
names the one that comes from the upper bound of the constraint.

A refusal is read off the findings, so it depends neither on the bounds that a
variable has nor on its value, and folding changes none of it. A run therefore
fails with the first refusal among its candidates, all of them taken in the model
that it starts from, and succeeds if there is none.

## Main definitions

* `Single.blocked?`: The number for one side that no value can respect.
* `Single.obstacle?`: The first of the two.
* `Pass.refusal?`: Why a pass stops at a constraint, if it does.
* `Pass.settled`: The candidates before the first one that is refused.

## Theorems

* `Pass.refusal?_eq_none`: What is not refused is accepted.
* `Run.visit_error_cases`: The ways in which a visit can fail.
* `Run.refusal_of_visit_error`: A visit that fails gives the refusal.
* `Pass.run_error_iff`: A run fails with the first refusal.
* `Pass.run_ok_iff`: A run without a refusal succeeds.
-/

namespace Presolve

open Scalar OrderedScalar

variable {α : Type} [Scalar α]

namespace Single

/-- The number implied for one side, if no value can respect it. -/
def blocked? (s : Single α) (side : Side) : Option α :=
  (s.number side).filter fun x => !(side.isUnbounding x || isFinite x)

/-- The first number implied that no value can respect, the upper bound of the
    constraint coming before the lower one. -/
def obstacle? (s : Single α) : Option α :=
  (s.blocked? (Side.upper.scaled s.coefficient)).or (s.blocked? (Side.lower.scaled s.coefficient))

theorem blocked?_eq_none {s : Single α} {side : Side} :
    s.blocked? side = none
      ↔ ∀ x ∈ s.number side, side.isUnbounding x = true ∨ isFinite x = true := by
  rw [blocked?, Option.filter_eq_none_iff]
  simp only [Option.mem_def, Bool.not_eq_true', Bool.not_eq_false, Bool.or_eq_true]

theorem obstacle?_eq_none {s : Single α} : s.obstacle? = none ↔ s.Satisfiable := by
  rw [obstacle?, Option.or_eq_none_iff, blocked?_eq_none, blocked?_eq_none]
  refine ⟨fun h side => ?_, fun h => ⟨h _, h _⟩⟩
  -- The two sides of the constraint are scaled to the two sides of the variable.
  rw [← side.scaled_scaled s.coefficient]
  cases side.scaled s.coefficient with
  | lower => exact h.2
  | upper => exact h.1

end Single

namespace Pass

/-- Why a pass stops at a constraint of a model, if it does. -/
def refusal? (p : Pass α) (m : Model α) (id : ConstraintId) : Option (FoldError α) :=
  match p.finding m id with
  | .error e => some e
  | .ok (.single s) =>
    if p.isDegenerate s.coefficient then none
    else s.obstacle?.map (.unsatisfiableBound s.constraint)
  | .ok _ => none

/-- The candidates of a run before the first one that is refused. -/
def settled (p : Pass α) (m : Model α) : List ConstraintId :=
  (p.candidates m).takeWhile fun id => (p.refusal? m id).isNone

variable {p : Pass α} {m : Model α} {id : ConstraintId}

theorem refusal?_single {s : Single α} (h : p.finding m id = .ok (.single s)) :
    p.refusal? m id = if p.isDegenerate s.coefficient then none
      else s.obstacle?.map (.unsatisfiableBound s.constraint) := by
  rw [refusal?, h]

theorem refusal?_eq_none : p.refusal? m id = none ↔ p.Accepts m id := by
  rw [refusal?, Accepts]
  cases p.finding m id with
  | error e => simp only [reduceCtorEq, false_and, exists_false]
  | ok f =>
      simp only [Except.ok.injEq, exists_eq_left']
      cases f with
      | nonlinear degree => simp only [reduceCtorEq, false_implies, implies_true]
      | nonSingle vars => simp only [reduceCtorEq, false_implies, implies_true]
      | single s =>
          simp only [Finding.single.injEq, forall_eq', Folds]
          cases p.isDegenerate s.coefficient with
          | true => simp only [if_true, true_or]
          | false =>
              simp only [Bool.false_eq_true, if_false, false_or, Option.map_eq_none_iff]
              exact Single.obstacle?_eq_none

theorem refusal?_rereads {m' : Model α} (h : m'.Rereads m) (p : Pass α) :
    p.refusal? m' = p.refusal? m := by
  funext id
  rw [refusal?, refusal?, finding_rereads h]

theorem accepts_of_mem_settled (h : id ∈ p.settled m) : p.Accepts m id := by
  rw [settled] at h
  have hnone := List.mem_takeWhile_imp h
  exact refusal?_eq_none.mp (Option.isNone_iff_eq_none.mp hnone)

end Pass

variable [OrderedScalar α]

namespace Run

variable {p : Pass α} {r half : Run α} {s : Single α} {v : Variable α} {side : Side}

/-- A side that cannot be moved has a number that no value can respect. -/
theorem blocked_of_tightenImplied_error (hv : r.model.variableAt s.var = .ok v) (hsound : v.Sound)
    {e : FoldError α}
    (h : r.tightenImplied s.constraint s.var s.coefficient s.constant side s.bounds = .error e) :
    ∃ x, s.blocked? (side.scaled s.coefficient) = some x ∧
      e = .unsatisfiableBound s.constraint x := by
  cases hblocked : s.blocked? (side.scaled s.coefficient) with
  | none =>
      rcases tightenImplied_ok hv hsound side (Single.blocked?_eq_none.mp hblocked) with
        ⟨r', hr', -⟩
      rw [hr'] at h
      cases h
  | some x =>
      rcases Option.filter_eq_some_iff.mp hblocked with ⟨hx, hstuck⟩
      rw [Bool.not_eq_true', Bool.or_eq_false_iff] at hstuck
      rw [tightenImplied_eq, hx] at h
      dsimp only at h
      rw [tighten, if_neg (Bool.eq_false_iff.mp hstuck.1), hstuck.2] at h
      exact ⟨x, rfl, (Except.error.inj h).symm⟩

/-- A side that is moved leaves the variable sound. -/
theorem sound_of_tightenImplied (hv : r.model.variableAt s.var = .ok v) (hsound : v.Sound)
    (h : r.tightenImplied s.constraint s.var s.coefficient s.constant side s.bounds = .ok half) :
    ∃ v', half.model.variableAt s.var = .ok v' ∧ v'.Sound := by
  have hside := satisfiable_of_tightenImplied h
  rcases tightenImplied_ok hv hsound side hside with ⟨r', hr', hmodel, -⟩
  rw [h, Except.ok.injEq] at hr'
  rw [hr', hmodel]
  refine ⟨_, Model.variableAt_modifyVariable_self _ hv, hsound.tighten _ fun x hx => ?_⟩
  -- What is put onto the side has passed the check, so it is finite.
  rw [Single.implied, Bounds.get_ofSides, Option.mem_filter_iff, Bool.not_eq_true'] at hx
  exact isNumber_of_finite ((hside x hx.1).resolve_left (Bool.eq_false_iff.mp hx.2))

theorem obstacle_of_impose_error (hv : r.model.variableAt s.var = .ok v) (hsound : v.Sound)
    {stopped : Stopped α}
    (h : r.impose s.constraint s.var s.coefficient s.constant s.bounds = .error stopped) :
    s.obstacle?.map (.unsatisfiableBound s.constraint) = some stopped.reason := by
  unfold impose at h
  split at h
  · rename_i e hfirst
    cases h
    rcases blocked_of_tightenImplied_error hv hsound hfirst with ⟨x, hx, rfl⟩
    rw [Single.obstacle?, hx, Option.some_or, Option.map_some]
  · rename_i half hfirst
    split at h
    · rename_i e hsecond
      cases h
      -- The second side meets the variable as the first one has left it.
      rcases sound_of_tightenImplied hv hsound hfirst with ⟨v', hv', hsound'⟩
      rcases blocked_of_tightenImplied_error hv' hsound' hsecond with ⟨x, hx, rfl⟩
      have hpassed := Single.blocked?_eq_none.mpr (satisfiable_of_tightenImplied hfirst)
      rw [Single.obstacle?, hpassed, Option.none_or, hx, Option.map_some]
    · cases h

/-- A visit fails because nothing is found, or because the numbers of a single
    cannot be imposed. The steps after that do not fail, since they switch off a
    constraint that exists and write numbers to a variable that exists. -/
theorem visit_error_cases (hp : p.reduce = Poly.reduce) (hm : r.model.Sound) {id : ConstraintId}
    {stopped : Stopped α} (h : r.visit p id = .error stopped) :
    (∃ e, p.finding r.model id = .error e ∧ stopped = ⟨e, r.countVisit⟩) ∨
      ∃ s v, p.finding r.model id = .ok (.single s) ∧ p.isDegenerate s.coefficient = false ∧
        r.model.variableAt s.var = .ok v ∧ v.Sound ∧
        r.countVisit.impose s.constraint s.var s.coefficient s.constant s.bounds
          = .error stopped := by
  rw [visit_eq] at h
  split at h
  · rename_i e hfinding
    exact Or.inl ⟨e, hfinding, (Except.error.inj h).symm⟩
  · cases h
  · cases h
  · rename_i s hfinding
    right
    have hlt := (Pass.proper_of_finding hp hm hfinding).var_lt
    have hget : r.model.vars[s.var.index]? = some r.model.vars[s.var.index] :=
      Array.getElem?_eq_getElem hlt
    have hv : r.model.variableAt s.var = .ok r.model.vars[s.var.index] :=
      Model.variableAt_eq_ok.mpr hget
    have hsound := hm.vars _ _ hget
    have hstuck : ¬ p.Folds s := by
      intro hfolds
      rcases Pass.exists_constraintAt_of_finding hfinding with ⟨c, hc⟩
      rcases foldSingle_ok (r := r.countVisit) hc hv hsound hfolds with ⟨r', hr', -⟩
      rw [hr'] at h
      cases h
    rw [Pass.Folds, not_or, Bool.not_eq_true] at hstuck
    refine ⟨s, _, hfinding, hstuck.1, hv, hsound, ?_⟩
    rw [foldSingle, hstuck.1, if_neg Bool.false_ne_true] at h
    split at h
    · rename_i himpose
      exact himpose.trans h
    · rename_i hbounded
      exact absurd (satisfiable_of_impose hbounded) hstuck.2

/-- A visit that fails gives the refusal of its constraint. -/
theorem refusal_of_visit_error (hp : p.reduce = Poly.reduce) (hm : r.model.Sound)
    {id : ConstraintId} {stopped : Stopped α} (h : r.visit p id = .error stopped) :
    p.refusal? r.model id = some stopped.reason := by
  rcases visit_error_cases hp hm h with
    ⟨e, hfinding, rfl⟩ | ⟨s, v, hfinding, husable, hv, hsound, himpose⟩
  · rw [Pass.refusal?, hfinding]
  · rw [Pass.refusal?_single hfinding, husable, if_neg Bool.false_ne_true]
    exact obstacle_of_impose_error (r := r.countVisit) hv hsound himpose

end Run

namespace Pass

variable {p : Pass α} {m : Model α}

/-- Visits fail with the first refusal among the constraints, all of them taken in
    the model at the start. -/
theorem refusal_of_visitAll_error (hp : p.reduce = Poly.reduce) {ids : List ConstraintId}
    {r : Run α} (hm : r.model.Sound) {stopped : Stopped α}
    (h : p.visitAll r ids = .error stopped) :
    ids.findSome? (p.refusal? r.model) = some stopped.reason := by
  rcases visitAll_eq_error h with ⟨done, id, rest, before, rfl, hdone, hvisit⟩
  rcases sound_rereads_of_visitAll hp hm hdone with ⟨hsound, hreread⟩
  have hrefused := Run.refusal_of_visit_error hp hsound hvisit
  rw [refusal?_rereads hreread] at hrefused
  refine List.findSome?_eq_some_iff.mpr ⟨done, id, rest, rfl, hrefused, fun id' hid' => ?_⟩
  exact refusal?_eq_none.mpr (accepts_of_visitAll hp hm hdone id' hid')

/-- A run fails with the first refusal among its candidates. -/
theorem run_error_iff (hp : p.reduce = Poly.reduce) (hm : m.Sound) {e : FoldError α} :
    (p.run m).result = .error e ↔ (p.candidates m).findSome? (p.refusal? m) = some e := by
  have hfails {e' : FoldError α} (h : (p.run m).result = .error e') :
      (p.candidates m).findSome? (p.refusal? m) = some e' := by
    rcases visitAll_of_run_error h with ⟨stopped, hall, -, rfl⟩
    exact refusal_of_visitAll_error hp hm hall
  refine ⟨hfails, fun hfirst => ?_⟩
  cases h : (p.run m).result with
  | ok report =>
      -- A run that succeeds accepts all candidates, so none is refused.
      have haccepts := accepts_of_run hp hm h
      rw [List.findSome?_eq_none_iff.mpr fun id hid => refusal?_eq_none.mpr (haccepts id hid)]
        at hfirst
      cases hfirst
  | error e' =>
      rw [hfails h, Option.some.injEq] at hfirst
      rw [hfirst]

/-- A run succeeds if and only if none of its candidates is refused. -/
theorem run_ok_iff (hp : p.reduce = Poly.reduce) (hm : m.Sound) :
    (∃ report, (p.run m).result = .ok report)
      ↔ (p.candidates m).findSome? (p.refusal? m) = none := by
  cases h : (p.run m).result with
  | ok report =>
      have haccepts := accepts_of_run hp hm h
      have hnone := List.findSome?_eq_none_iff.mpr fun id hid =>
        refusal?_eq_none.mpr (haccepts id hid)
      exact ⟨fun _ => hnone, fun _ => ⟨report, rfl⟩⟩
  | error e =>
      rw [(run_error_iff hp hm).mp h]
      simp only [reduceCtorEq, exists_false]

end Pass

end Presolve
