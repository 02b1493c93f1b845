import Presolve.Proofs.Fold.Reference
import Presolve.Proofs.Fold.Refusal

/-!
# Tolerances

What a larger tolerance changes in a run. The tolerance is asked one question, whether the
coefficient of a single is too close to zero to carry a bound, and it is asked after the
constraint was found to be a single. So two passes that differ in nothing else find the same
everywhere, and they fold the same constraints.

More coefficients are degenerate for the coarser pass. Where one is, the pass imposes nothing
and cannot be refused, whereas the finer pass imposes the numbers that are implied or stops
at them. The numbers offered to a variable by the coarser pass are therefore among those that
the finer one offers, and the tightest of more numbers is at least as tight. This compares
two runs by their ends, although the models they go through on the way drift apart.

## Main definitions

* `Pass.Coarsens`: A pass has a larger tolerance than another one and is the same otherwise.
* `Counts.DegenerateLE`: Counts that differ in how many constraints are degenerate.

## Theorems

* `Pass.Coarsens.finding_eq`: Both passes find the same.
* `Pass.Coarsens.accepts`: What the finer pass accepts the coarser one accepts.
* `Pass.Coarsens.offers_subset`: The coarser pass offers no other numbers.
* `Pass.tightest_run`: What a run that succeeds leaves on a side of a variable.
* `Pass.run_of_coarsens`: The two runs compared.
-/

namespace Presolve

open Scalar OrderedScalar

/-- The counts are the same but for the degenerate constraints, of which the second ones have
    at least as many. -/
structure Counts.DegenerateLE (c d : Counts) : Prop where
  visited : c.visited = d.visited
  deactivated : c.deactivated = d.deactivated
  degenerate : c.degenerate ≤ d.degenerate
  skippedNonlinear : c.skippedNonlinear = d.skippedNonlinear
  skippedNonSingle : c.skippedNonSingle = d.skippedNonSingle

namespace Counts.DegenerateLE

theorem refl (c : Counts) : c.DegenerateLE c := ⟨rfl, rfl, le_rfl, rfl, rfl⟩

theorem add {c c' d d' : Counts} (h : c.DegenerateLE d) (h' : c'.DegenerateLE d') :
    (c + c').DegenerateLE (d + d') where
  visited := congrArg₂ (· + ·) h.visited h'.visited
  deactivated := congrArg₂ (· + ·) h.deactivated h'.deactivated
  degenerate := Nat.add_le_add h.degenerate h'.degenerate
  skippedNonlinear := congrArg₂ (· + ·) h.skippedNonlinear h'.skippedNonlinear
  skippedNonSingle := congrArg₂ (· + ·) h.skippedNonSingle h'.skippedNonSingle

end Counts.DegenerateLE

variable {α : Type} [Scalar α]

/-- A pass has a tolerance at least as large as that of another one, and it is the same
    otherwise. -/
structure Pass.Coarsens (q p : Pass α) : Prop where
  reduce : q.reduce = p.reduce
  descend : q.config.descendInto = p.config.descendInto
  tolerance : p.config.zeroTolerance ≤ q.config.zeroTolerance

namespace Pass.Coarsens

variable {p q : Pass α} {m : Model α} {id : ConstraintId} {s : Single α}

theorem candidates_eq (h : q.Coarsens p) (m : Model α) : q.candidates m = p.candidates m := by
  rw [candidates, candidates, h.descend]

/-- What a constraint is found to be is no matter of the tolerance. -/
theorem finding_eq (h : q.Coarsens p) (m : Model α) : q.finding m = p.finding m := by
  funext id
  rw [finding, finding, h.reduce]

theorem foldable_eq (h : q.Coarsens p) (m : Model α) : q.foldable m = p.foldable m := by
  have hsingle : q.single? m = p.single? m := by
    funext id
    rw [single?, single?, h.finding_eq]
  rw [foldable, foldable, h.candidates_eq, singles, singles, hsingle]

variable [OrderedScalar α]

theorem isDegenerate (h : q.Coarsens p) {k : α} (hk : p.isDegenerate k = true) :
    q.isDegenerate k = true := by
  rw [Pass.isDegenerate, Bool.or_eq_true, decide_eq_true_eq] at hk ⊢
  exact hk.imp_right fun hlt => lt_of_lt_of_le hlt h.tolerance

theorem usable (h : q.Coarsens p) {k : α} (hk : q.isDegenerate k = false) :
    p.isDegenerate k = false :=
  Bool.eq_false_iff.mpr fun hdegenerate => Bool.eq_false_iff.mp hk (h.isDegenerate hdegenerate)

theorem folds (h : q.Coarsens p) (hs : p.Folds s) : q.Folds s := hs.imp_left h.isDegenerate

/-- A constraint at which the finer pass does not stop is none at which the coarser one
    does. -/
theorem accepts (h : q.Coarsens p) (hid : p.Accepts m id) : q.Accepts m id := by
  rcases hid with ⟨f, hf, hfolds⟩
  exact ⟨f, by rw [h.finding_eq, hf], fun s hs => h.folds (hfolds s hs)⟩

/-- A single that offers a number to the coarser pass offers it to the finer one. -/
theorem offers_subset (h : q.Coarsens p) (m : Model α) (var : VariableId) (side : Side) :
    q.offers m var side ⊆ p.offers m var side := by
  intro x hx
  rw [offers, h.foldable_eq, List.mem_filterMap] at hx
  rcases hx with ⟨s, hs, hx⟩
  refine List.mem_filterMap.mpr ⟨s, hs, ?_⟩
  by_cases hcond : s.var = var ∧ q.isDegenerate s.coefficient = false
  · rw [if_pos hcond] at hx
    rwa [if_pos ⟨hcond.1, h.usable hcond.2⟩]
  · rw [if_neg hcond] at hx
    cases hx

theorem tallyAt (h : q.Coarsens p) (m : Model α) (id : ConstraintId) :
    (p.tallyAt m id).DegenerateLE (q.tallyAt m id) := by
  rw [Pass.tallyAt, Pass.tallyAt, h.finding_eq]
  cases p.finding m id with
  | error e => exact .refl _
  | ok f =>
      cases f with
      | nonlinear degree => exact .refl _
      | nonSingle vars => exact .refl _
      | single s =>
          refine ⟨rfl, rfl, ?_, rfl, rfl⟩
          -- The constraint counts once at most, and for the coarser pass if it does at all.
          change (if p.isDegenerate s.coefficient = true then 1 else 0)
            ≤ if q.isDegenerate s.coefficient = true then 1 else 0
          by_cases hdegenerate : p.isDegenerate s.coefficient = true
          · rw [if_pos (h.isDegenerate hdegenerate)]
            split <;> omega
          · rw [if_neg hdegenerate]
            exact Nat.zero_le _

theorem sum_tallyAt (h : q.Coarsens p) (m : Model α) (ids : List ConstraintId) :
    (ids.map (p.tallyAt m)).sum.DegenerateLE (ids.map (q.tallyAt m)).sum := by
  induction ids with
  | nil => exact .refl _
  | cons id rest ih =>
      rw [List.map_cons, List.map_cons, List.sum_cons, List.sum_cons]
      exact (h.tallyAt m id).add ih

end Pass.Coarsens

/-- The tightest of more numbers is at least as tight. -/
theorem Side.Tightest.dominates {side : Side} {xs ys : List α} {x : α} {y : Option α}
    (hx : side.Tightest xs (some x)) (hy : side.Tightest ys y) (hsub : xs ⊆ ys) :
    ∃ b ∈ y, side.Dominates b x := by
  have hmem : x ∈ ys := hsub hx.1
  cases y with
  | none =>
      rw [show ys = [] from hy] at hmem
      cases hmem
  | some b => exact ⟨b, rfl, hy.2 x hmem⟩

variable [OrderedScalar α]

namespace Pass

variable {p q : Pass α} {m : Model α}

/-- After a run that succeeds each side of a variable holds the tightest of the number it had
    and the numbers offered to it. -/
theorem tightest_run (hp : p.reduce = Poly.reduce) (hm : m.Sound) {report : Report α}
    (h : (p.run m).result = .ok report) {id : VariableId} {v : Variable α}
    (hv : m.variableAt id = .ok v) :
    ∃ w, (p.run m).model.variableAt id = .ok w ∧
      ∀ side : Side, side.Tightest ((v.bounds.get side).toList ++ p.offers m id side)
        (w.bounds.get side) := by
  rw [Model.variableAt_eq_ok] at hv
  refine ⟨v.imposeAll (p.imposedOn (p.foldable m) id.index), ?_, fun side => ?_⟩
  · rw [Model.variableAt_eq_ok, model_of_run hp hm h, vars_foldAll, hv, Option.map_some]
  · rw [← filterMap_imposedOn]
    refine Variable.tightest_imposeAll ?_ (Side.tightest_toList ?_)
    · exact hasNaN_of_mem_imposedOn hp hm (accepts_of_run hp hm h)
    · exact (Bounds.hasNaN_iff _).mp (hm.vars _ v hv).bounds side

/-- If a run succeeds, so does the run of a coarser pass over the same model. It switches the
    same constraints off and has the same counts, except that more constraints may be
    degenerate. All bounds after it are present and at least as tight after the first run. -/
theorem run_of_coarsens (hp : p.reduce = Poly.reduce) (hq : q.Coarsens p) (hm : m.Reachable)
    {report : Report α} (h : (p.run m).result = .ok report) :
    ∃ report', (q.run m).result = .ok report' ∧
      report.counts.DegenerateLE report'.counts ∧
      (q.run m).model.constraints = (p.run m).model.constraints ∧
      ∀ id v, m.variableAt id = .ok v → ∃ w w', (p.run m).model.variableAt id = .ok w ∧
        (q.run m).model.variableAt id = .ok w' ∧ w.bounds.Refines w'.bounds := by
  have hsound := hm.sound
  have hreduce : q.reduce = Poly.reduce := hq.reduce.trans hp
  have haccepts := accepts_of_run hp hsound h
  -- Nothing that the coarser pass meets is refused.
  have hnone : (q.candidates m).findSome? (q.refusal? m) = none := by
    rw [hq.candidates_eq]
    refine List.findSome?_eq_none_iff.mpr fun id hid => ?_
    exact refusal?_eq_none.mpr (hq.accepts (haccepts id hid))
  rcases (run_ok_iff hreduce hsound).mpr hnone with ⟨report', h'⟩
  refine ⟨report', h', ?_, ?_, fun id v hv => ?_⟩
  · rw [counts_of_run hp hsound h, counts_of_run hreduce hsound h', hq.candidates_eq]
    exact hq.sum_tallyAt m _
  · refine Array.ext_getElem? fun i => ?_
    rw [model_of_run hreduce hsound h', model_of_run hp hsound h, constraints_foldAll,
      constraints_foldAll, hq.foldable_eq]
  · rcases tightest_run hp hsound h hv with ⟨w, hw, htight⟩
    rcases tightest_run hreduce hsound h' hv with ⟨w', hw', htight'⟩
    refine ⟨w, w', hw, hw', fun side x hx => ?_⟩
    have hcoarse := htight' side
    rw [Option.mem_def.mp hx] at hcoarse
    exact hcoarse.dominates (htight side)
      (List.append_subset.mpr ⟨List.subset_append_left _ _,
        List.subset_append_of_subset_right _ (hq.offers_subset m id side)⟩)

/-- The constraint `10⁻⁴ * y ≤ 1` bounds `y` by `10⁴`, unless the tolerance is `10⁻³`. Either way
    it is switched off, as is `2 * x ≤ 6`, and `x * y ≤ 1` is left alone. -/
theorem run_of_coarsens_degenerate :
    ∃ (m : Model Float) (q : Pass Float) (report report' : Report Float) (w w' : Variable Float),
      m = (Model.empty : Model Float).after [.addVariable {}, .addVariable {},
        .addConstraintTo rootBlock (.term ⟨0⟩ 2) ⟨none, some 6⟩,
        .addConstraintTo rootBlock (.term ⟨1⟩ 1e-4) ⟨none, some 1⟩,
        .addConstraintTo rootBlock (.product ⟨0⟩ ⟨1⟩ 1) ⟨none, some 1⟩] ∧
      q.config.zeroTolerance = 1e-3 ∧ q.Coarsens standard ∧
      (standard.run m).result = .ok report ∧ (q.run m).result = .ok report' ∧
      report.counts.DegenerateLE report'.counts ∧
      report.degenerate = 0 ∧ report'.degenerate = 1 ∧
      (q.run m).model.constraints = (standard.run m).model.constraints ∧
      (standard.run m).model.variableAt ⟨1⟩ = .ok w ∧ (q.run m).model.variableAt ⟨1⟩ = .ok w' ∧
      w.bounds.Refines w'.bounds ∧ w'.bounds.upper.isNone = true ∧
      (w.bounds.upper == some 1e4) = true := by
  set m : Model Float := (Model.empty : Model Float).after [.addVariable {}, .addVariable {},
    .addConstraintTo rootBlock (.term ⟨0⟩ 2) ⟨none, some 6⟩,
    .addConstraintTo rootBlock (.term ⟨1⟩ 1e-4) ⟨none, some 1⟩,
    .addConstraintTo rootBlock (.product ⟨0⟩ ⟨1⟩ 1) ⟨none, some 1⟩] with hm
  set q : Pass Float := ⟨{ zeroTolerance := 1e-3 }, Poly.reduce, by decide⟩
  have hq : q.Coarsens standard := ⟨rfl, rfl, by decide +kernel⟩
  rcases exists_ok_of_isOk (show (standard.run m).result.isOk = true by decide +kernel) with
    ⟨report, h⟩
  rcases run_of_coarsens rfl hq ⟨_, hm.symm⟩ h with ⟨report', h', hcounts, hoff, hbounds⟩
  rcases hbounds ⟨1⟩ {} rfl with ⟨w, w', hw, hw', hrefines⟩
  have hfine : (standard.run m).result.toOption.map (·.degenerate) = some 0 := by decide +kernel
  have hcoarse : (q.run m).result.toOption.map (·.degenerate) = some 1 := by decide +kernel
  rw [h] at hfine
  rw [h'] at hcoarse
  have hupper : ((standard.run m).model.variableAt ⟨1⟩).toOption.any (·.bounds.upper == some 1e4)
      = true := by decide +kernel
  have hnone : ((q.run m).model.variableAt ⟨1⟩).toOption.any (·.bounds.upper.isNone) = true := by
    decide +kernel
  rw [hw] at hupper
  rw [hw'] at hnone
  exact ⟨m, q, report, report', w, w', rfl, rfl, hq, h, h', hcounts, Option.some.inj hfine,
    Option.some.inj hcoarse, hoff, hw, hw', hrefines, hnone, hupper⟩

end Pass

end Presolve
