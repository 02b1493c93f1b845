import Mathlib.Data.List.Perm.Basic
import Presolve.Proofs.Fold.Result
import Presolve.Proofs.Scalar.Double

/-!
# Orders of Visits

Constraints may be looked at in any order. Whether a run succeeds depends on each
of them alone, and of the singles that it folds only those matter that a variable
or a constraint is part of, not where they stand in the list.

Bounds and values come out equal, not identical. A zero that is imposed keeps its
sign, and of two zeros the first one stays. Everything else is the same.

The values need more than that each step commutes with the next, since a value is
moved between bounds that later steps have yet to tighten, and that may by then
be crossed. What makes the moves cancel is that a value ends up where one move
between the last bounds would have put it.

## Main definitions

* `Variable.Agrees`: Two variables have equal numbers.
* `Model.Agrees`: Two models differ at most in equal numbers.

## Theorems

* `Bounds.clampPlace_congr`: Equal bounds move a value to the same place.
* `Variable.agrees_imposeAll`: Bounds can be imposed in any order.
* `Pass.agrees_foldAll`: Singles can be folded in any order.
* `Pass.visitAll_perm`: Candidates can be visited in any order.
-/

namespace Presolve

open Scalar OrderedScalar

variable {α : Type} [Scalar α]

/-- The numbers of two variables are equal, as far as they have any, and both
    are fixed or neither is. -/
structure Variable.Agrees (v w : Variable α) : Prop where
  bounds : ∀ side : Side, (v.bounds.get side == w.bounds.get side) = true
  value : (v.value == w.value) = true
  fixed : v.fixed = w.fixed

/-- Two models are the same, but for numbers of variables that are equal. -/
structure Model.Agrees (m m' : Model α) : Prop where
  size : m.vars.size = m'.vars.size
  vars : ∀ (i : Nat) (v w : Variable α), m.vars[i]? = some v → m'.vars[i]? = some w → v.Agrees w
  constraints : m.constraints = m'.constraints
  blocks : m.blocks = m'.blocks
  varNames : m.varNames = m'.varNames
  constraintNames : m.constraintNames = m'.constraintNames

namespace Pass

variable {p : Pass α} {ss ts : List (Single α)}

theorem imposedOn_perm (h : ss.Perm ts) (i : Nat) : (p.imposedOn ss i).Perm (p.imposedOn ts i) :=
  (h.filter _).map _

theorem singles_perm {m : Model α} {ids ids' : List ConstraintId} (h : ids.Perm ids') :
    (p.singles m ids).Perm (p.singles m ids') :=
  h.filterMap _

/-- Singles switch the same constraints off in any order. -/
theorem constraints_foldAll_perm (m : Model α) (h : ss.Perm ts) :
    (p.foldAll m ss).constraints = (p.foldAll m ts).constraints := by
  refine Array.ext_getElem? fun i => ?_
  rw [constraints_foldAll, constraints_foldAll]
  have hany : ss.any (·.constraint.index == i) = ts.any (·.constraint.index == i) := by
    rw [Bool.eq_iff_iff, List.any_eq_true, List.any_eq_true]
    simp only [h.mem_iff]
  rw [hany]

/-- A run counts the same in any order. -/
theorem sum_tallyAt_perm {m : Model α} {ids ids' : List ConstraintId} (h : ids.Perm ids') :
    (ids.map (p.tallyAt m)).sum = (ids'.map (p.tallyAt m)).sum :=
  (h.map _).sum_eq

end Pass

variable [OrderedScalar α]

/-- Equal bounds move a value to the same place. -/
theorem Bounds.clampPlace_congr {b c : Bounds α}
    (h : ∀ side : Side, (b.get side == c.get side) = true) (x : Line α) :
    b.clampPlace x = c.clampPlace x := by
  have hplace (side : Side) : (b.get side).map place = (c.get side).map place := by
    have hside := h side
    cases hb : b.get side with
    | none =>
        cases hc : c.get side with
        | none => rfl
        | some y => rw [hb, hc] at hside; cases hside
    | some x =>
        cases hc : c.get side with
        | none => rw [hb, hc] at hside; cases hside
        | some y =>
            rw [hb, hc] at hside
            exact congrArg some (beq_iff.mp hside).2.2
  -- A move depends on the places of the bounds alone.
  have helim (b : Option α) (f : Line α → Line α) (z : Line α) :
      (b.elim z fun a => f (place a)) = (b.map place).elim z f := by
    cases b <;> rfl
  have hlower := hplace .lower
  have hupper := hplace .upper
  simp only [get] at hlower hupper
  simp only [clampPlace]
  rw [helim _ (max · x), helim c.lower (max · x), hlower]
  rw [helim _ (fun u => min u _), helim c.upper (fun u => min u _), hupper]

/-- Bounds can be imposed on a variable in any order. -/
theorem Variable.agrees_imposeAll {v : Variable α} (h : v.Sound) {bs cs : List (Bounds α)}
    (hperm : bs.Perm cs) (hbs : ∀ b ∈ bs, b.hasNaN = false) :
    (v.imposeAll bs).Agrees (v.imposeAll cs) := by
  have hcs (c : Bounds α) (hc : c ∈ cs) : c.hasNaN = false := hbs c (hperm.mem_iff.mpr hc)
  have hbounds (side : Side) :
      ((v.imposeAll bs).bounds.get side == (v.imposeAll cs).bounds.get side) = true := by
    have hstart : side.Tightest (v.bounds.get side).toList (v.bounds.get side) :=
      Side.tightest_toList ((Bounds.hasNaN_iff _).mp h.bounds side)
    -- Both orders leave the tightest of the same numbers.
    refine (tightest_imposeAll hbs hstart).agree (tightest_imposeAll hcs hstart) fun a => ?_
    exact ((hperm.filterMap _).append_left _).mem_iff
  refine ⟨hbounds, ?_, ?_⟩
  · cases hvalue : v.value with
    | none => rw [value_imposeAll_none hvalue, value_imposeAll_none hvalue]; rfl
    | some x =>
        by_cases hnil : bs = []
        · -- The value was not moved at all.
          subst hnil
          rw [List.nil_perm.mp hperm]
          change (v.value == v.value) = true
          rw [hvalue]
          exact beq_self (h.value x hvalue)
        · -- In both orders the value is where one move between the last bounds puts it.
          rcases place_imposeAll h hbs hnil hvalue with ⟨y, hy, hnumber, hplace⟩
          have hnil' : cs ≠ [] := fun hcs => hnil (List.perm_nil.mp (hcs ▸ hperm))
          rcases place_imposeAll h hcs hnil' hvalue with ⟨z, hz, hnumber', hplace'⟩
          rw [hy, hz]
          refine beq_iff.mpr ⟨hnumber, hnumber', ?_⟩
          rw [hplace, hplace', Bounds.clampPlace_congr hbounds]
  · rw [fixed_imposeAll, fixed_imposeAll]

namespace Pass

variable {p : Pass α} {m : Model α}

/-- Singles can be folded in any order. -/
theorem agrees_foldAll (hm : m.Sound) {ss ts : List (Single α)} (hperm : ss.Perm ts)
    (hfolds : ∀ s ∈ ss, p.Folds s) : (p.foldAll m ss).Agrees (p.foldAll m ts) where
  size := by rw [size_vars_foldAll, size_vars_foldAll]
  vars := by
    intro i v w hv hw
    rw [vars_foldAll, Option.map_eq_some_iff] at hv hw
    rcases hv with ⟨u, hu, rfl⟩
    rcases hw with ⟨u', hu', rfl⟩
    rw [hu, Option.some.injEq] at hu'
    subst hu'
    refine Variable.agrees_imposeAll (hm.vars i u hu) (imposedOn_perm hperm i) fun b hb => ?_
    rcases exists_of_mem_imposedOn hb with ⟨s, hs, -, rfl⟩
    exact hasNaN_imposed (hfolds s hs)
  constraints := constraints_foldAll_perm m hperm
  blocks := by rw [blocks_foldAll, blocks_foldAll]
  varNames := by rw [(names_foldAll p m ss).1, (names_foldAll p m ts).1]
  constraintNames := by rw [(names_foldAll p m ss).2, (names_foldAll p m ts).2]

/-- Whether constraints can all be visited does not depend on their order. -/
theorem visitAll_ok_perm (hp : p.reduce = Poly.reduce) (hm : m.Sound) {ids ids' : List ConstraintId}
    (hperm : ids.Perm ids') :
    (∃ r, p.visitAll { model := m } ids = .ok r) ↔
      ∃ r', p.visitAll { model := m } ids' = .ok r' := by
  rw [visitAll_ok_iff hp hm, visitAll_ok_iff hp hm]
  simp only [hperm.mem_iff]

/-- Visits in two orders leave models and counts that agree. -/
theorem agrees_of_perm (hp : p.reduce = Poly.reduce) (hm : m.Sound) {ids ids' : List ConstraintId}
    (hperm : ids.Perm ids') {r r' : Run α} (hr : p.visitAll { model := m } ids = .ok r)
    (hr' : p.visitAll { model := m } ids' = .ok r') :
    r.model.Agrees r'.model ∧ r.report.counts = r'.report.counts := by
  rcases model_of_visitAll hp hm hr with ⟨hmodel, hcounts⟩
  rcases model_of_visitAll hp hm hr' with ⟨hmodel', hcounts'⟩
  have haccepts := accepts_of_visitAll hp hm hr
  refine ⟨?_, ?_⟩
  · rw [hmodel, hmodel']
    exact agrees_foldAll hm (singles_perm hperm)
      fun s hs => (proper_folds_of_accepts hp hm haccepts hs).2
  · rw [hcounts, hcounts', sum_tallyAt_perm hperm]

/-- The candidates of a run can be visited in any order. The visits succeed in
    all orders or in none, and if they do, models and counts agree. -/
theorem visitAll_perm (hp : p.reduce = Poly.reduce) (hm : m.Reachable)
    {ids ids' : List ConstraintId} (hids : ids.Perm (p.candidates m))
    (hids' : ids'.Perm (p.candidates m)) :
    ((∃ r, p.visitAll { model := m } ids = .ok r) ↔
      ∃ r', p.visitAll { model := m } ids' = .ok r') ∧
    ∀ r r', p.visitAll { model := m } ids = .ok r → p.visitAll { model := m } ids' = .ok r' →
      r.model.Agrees r'.model ∧ r.report.counts = r'.report.counts := by
  have hperm := hids.trans hids'.symm
  exact ⟨visitAll_ok_perm hp hm.sound hperm, fun r r' => agrees_of_perm hp hm.sound hperm⟩

/-- The constraints `x ≤ 3` and `-x ≤ -5` contradict each other and can be folded in
    either order. -/
theorem visitAll_perm_contradiction :
    ∃ (m : Model Float) (r r' : Run Float),
      m = (Model.empty : Model Float).after [.addVariable { value := some 10 },
        .addConstraintTo rootBlock (.term ⟨0⟩ 1) ⟨none, some 3⟩,
        .addConstraintTo rootBlock (.term ⟨0⟩ (-1)) ⟨none, some (-5)⟩] ∧
      standard.visitAll { model := m } [⟨0⟩, ⟨1⟩] = .ok r ∧
      standard.visitAll { model := m } [⟨1⟩, ⟨0⟩] = .ok r' ∧
      r.model.Agrees r'.model ∧ r.report.counts = r'.report.counts := by
  set m : Model Float := Model.empty.after [.addVariable { value := some 10 },
    .addConstraintTo rootBlock (.term ⟨0⟩ 1) ⟨none, some 3⟩,
    .addConstraintTo rootBlock (.term ⟨0⟩ (-1)) ⟨none, some (-5)⟩] with hm
  have hcandidates : standard.candidates m = [⟨0⟩, ⟨1⟩] := by decide +kernel
  have hids : List.Perm [⟨0⟩, ⟨1⟩] (standard.candidates m) := by rw [hcandidates]
  have hids' : List.Perm [⟨1⟩, ⟨0⟩] (standard.candidates m) := by
    rw [hcandidates]
    exact List.Perm.swap ..
  have hperms := visitAll_perm rfl ⟨_, hm.symm⟩ hids hids'
  rcases exists_ok_of_isOk (show (standard.visitAll { model := m } [⟨0⟩, ⟨1⟩]).isOk = true by
    decide +kernel) with ⟨r, hr⟩
  rcases hperms.1.mp ⟨r, hr⟩ with ⟨r', hr'⟩
  exact ⟨m, r, r', rfl, hr, hr', hperms.2 r r' hr hr'⟩

end Pass

end Presolve
