import Presolve.Proofs.Fold.Refusal
import Presolve.Proofs.Model.Tree
import Presolve.Proofs.Scalar.Monotone

/-!
# Failing Runs

What a run that fails leaves behind. It fails at one of its candidates, and the
model is then the one that the candidates before have left, while that candidate
and all later ones are still on.

This is not plain from the steps. The two sides of a constraint are moved onto
the variable one after the other, and nothing is taken back if the second one
cannot be moved. But the lower bound of a constraint is not above its upper one,
and differences and quotients keep the order, so the two numbers implied are
ordered as well. If the second one is the infinity that no value can respect,
then the first one is the same infinity, which on its own side restricts nothing
and was passed over.

## Theorems

* `Single.number_le_number`: The numbers implied are ordered.
* `Side.isUnbounding_or_finite`: What lies outside a finite number can be moved.
* `Run.model_of_impose_error`: A single that cannot be imposed changes nothing.
* `Run.model_of_visit_error`: A visit that fails changes nothing.
* `Pass.model_of_run_error`: What a run that fails leaves behind.
-/

namespace Presolve

open Scalar OrderedScalar

variable {α : Type} [Scalar α]

/-- A number on the outer side of a finite one is finite, or it is the infinity
    that restricts nothing. -/
theorem Side.isUnbounding_or_finite [OrderedScalar α] {side : Side} {x y : α}
    (h : side.Dominates x y) (hx : isFinite x = true) :
    side.isUnbounding y = true ∨ isFinite y = true := by
  have hinfinite := (isFinite_iff.mp hx).2
  -- An infinite number on the inner side would have the finite one beyond it.
  cases hy : isInfinite y with
  | false => exact Or.inr (isFinite_iff.mpr ⟨h.isNumber.2, hy⟩)
  | true =>
      left
      cases side
      · rcases infinite_pos_or_neg hy with hpos | hneg
        · rw [infinite_of_le hy hpos h] at hinfinite
          cases hinfinite
        · rw [isUnbounding, hy, Bool.true_and, decide_eq_true hneg]
      · rcases infinite_pos_or_neg hy with hpos | hneg
        · rw [isUnbounding, hy, Bool.true_and, decide_eq_true hpos]
        · rw [infinite_of_ge hy hneg h] at hinfinite
          cases hinfinite

/-- A side that is moved is passed over, or its number is finite. -/
theorem Run.eq_or_finite_of_tightenImplied {s : Single α} {r half : Run α} {side : Side}
    (h : r.tightenImplied s.constraint s.var s.coefficient s.constant side s.bounds = .ok half) :
    half = r ∨ ∃ x ∈ s.number (side.scaled s.coefficient), isFinite x = true := by
  rw [tightenImplied_eq] at h
  split at h
  · exact Or.inl (Except.ok.inj h).symm
  · rename_i x hx
    by_cases hunbounding : (side.scaled s.coefficient).isUnbounding x = true
    · rw [tighten, if_pos hunbounding, Except.ok.injEq] at h
      exact Or.inl h.symm
    · exact Or.inr ⟨x, hx, (satisfiable_of_tighten h).resolve_left hunbounding⟩

namespace Single

variable {s : Single α}

theorem number_of_pos (h : 0 < s.coefficient) (side : Side) :
    s.number side = (s.bounds.get side).map fun b => (b - s.constant) / s.coefficient := by
  rw [number, Side.scaled, if_pos h]

theorem number_of_not_pos (h : ¬ 0 < s.coefficient) (side : Side) :
    s.number side = (s.bounds.get side.flip).map fun b => (b - s.constant) / s.coefficient := by
  rw [number, Side.scaled, if_neg h]

end Single

section Monotone

variable [MonotoneScalar α] {m : Model α} {s : Single α}

/-- The number implied for the lower side is not above the one for the upper
    side, whatever the sign of the coefficient. -/
theorem Single.number_le_number (hs : s.Proper m) (hzero : (s.coefficient == 0) = false) {l u : α}
    (hl : l ∈ s.number .lower) (hu : u ∈ s.number .upper) : l ≤ u := by
  have hordered {a b : α} (ha : s.bounds.lower = some a) (hb : s.bounds.upper = some b) :
      a - s.constant ≤ b - s.constant :=
    MonotoneScalar.sub_le_sub (Bounds.le_of_ordered hs.bounds hs.ordered ha hb) hs.constant
  -- A negative coefficient swaps the sides and turns the order around as well.
  rcases pos_or_neg (isNumber_of_finite hs.coefficient) hzero with hpos | hneg
  · rw [number_of_pos hpos, Option.mem_def, Option.map_eq_some_iff] at hl hu
    rcases hl with ⟨a, ha, rfl⟩
    rcases hu with ⟨b, hb, rfl⟩
    exact MonotoneScalar.div_le_div (hordered ha hb) hs.coefficient hpos
  · rw [number_of_not_pos (not_lt_of_lt hneg), Option.mem_def, Option.map_eq_some_iff] at hl hu
    rcases hl with ⟨b, hb, rfl⟩
    rcases hu with ⟨a, ha, rfl⟩
    exact MonotoneScalar.div_le_div_of_neg (hordered ha hb) hs.coefficient hneg

/-- Each number implied lies on the outer side of the other one. -/
theorem Single.dominates_flip (hs : s.Proper m) (hzero : (s.coefficient == 0) = false)
    {side : Side} {x y : α} (hx : x ∈ s.number side.flip) (hy : y ∈ s.number side) :
    side.Dominates x y := by
  cases side
  · exact number_le_number hs hzero hy hx
  · exact number_le_number hs hzero hx hy

namespace Run

variable {p : Pass α} {r : Run α}

/-- A single that cannot be imposed changes nothing, although its first side was
    moved before the second one failed. -/
theorem model_of_impose_error {v : Variable α} (hv : r.model.variableAt s.var = .ok v)
    (hsound : v.Sound) (hs : s.Proper m) (hzero : (s.coefficient == 0) = false)
    {stopped : Stopped α}
    (h : r.impose s.constraint s.var s.coefficient s.constant s.bounds = .error stopped) :
    stopped.run.model = r.model := by
  unfold impose at h
  split at h
  · -- The first side failed, before anything was changed.
    cases h
    rfl
  · rename_i half hfirst
    split at h
    · rename_i e hsecond
      cases h
      rcases eq_or_finite_of_tightenImplied hfirst with rfl | ⟨x, hx, hfinite⟩
      · -- The first side was passed over.
        rfl
      · -- The first side is finite, so the second one can be moved as well.
        rcases sound_of_tightenImplied hv hsound hfirst with ⟨v', hv', hsound'⟩
        rcases blocked_of_tightenImplied_error hv' hsound' hsecond with ⟨y, hy, -⟩
        have hflip : Side.upper.scaled s.coefficient = (Side.lower.scaled s.coefficient).flip :=
          Side.scaled_flip .lower _
        rw [hflip] at hx
        have hpassed : s.blocked? (Side.lower.scaled s.coefficient) = none :=
          Single.blocked?_eq_none.mpr fun z hz =>
            Side.isUnbounding_or_finite (Single.dominates_flip hs hzero hx hz) hfinite
        rw [hpassed] at hy
        cases hy
    · cases h

/-- A visit that fails changes nothing. -/
theorem model_of_visit_error (hp : p.reduce = Poly.reduce) (hsound : r.model.Sound)
    {id : ConstraintId} {stopped : Stopped α} (h : r.visit p id = .error stopped) :
    stopped.run.model = r.model := by
  rcases visit_error_cases hp hsound h with
    ⟨e, -, rfl⟩ | ⟨s, v, hfinding, husable, hv, hvsound, himpose⟩
  · rfl
  · have hs := Pass.proper_of_finding hp hsound hfinding
    have hzero := Pass.beq_zero_of_usable husable
    exact model_of_impose_error (r := r.countVisit) hv hvsound hs hzero himpose

end Run

namespace Pass

variable {p : Pass α}

/-- A run that fails does so at one of its candidates. The model is the one that
    the candidates before have left, and this candidate and all after it are on. -/
theorem model_of_run_error (hp : p.reduce = Poly.reduce) (hm : m.Reachable) (hfits : m.Fits)
    {e : FoldError α} (h : (p.run m).result = .error e) :
    ∃ done id rest r stopped, p.candidates m = done ++ id :: rest ∧
      p.visitAll { model := m } done = .ok r ∧
      r.visit p id = .error stopped ∧ stopped.reason = e ∧
      (p.run m).model = r.model ∧
      ∀ later ∈ id :: rest, (p.run m).model.isActive later = true := by
  have hsound := hm.sound
  rcases visitAll_of_run_error h with ⟨stopped, hall, hleft, hreason⟩
  rcases visitAll_eq_error hall with ⟨done, id, rest, r, hids, hdone, hvisit⟩
  have hfolded := (model_of_visitAll hp hsound hdone).1
  have hkept := accepts_of_visitAll hp hsound hdone
  have hmodel : (p.run m).model = r.model := by
    rw [hleft]
    refine Run.model_of_visit_error hp ?_ hvisit
    rw [hfolded]
    exact (foldAll_sound_rereads hsound fun s hs =>
      (proper_folds_of_accepts hp hsound hkept hs).imp_left Single.Proper.free).1
  refine ⟨done, id, rest, r, stopped, hids, hdone, hvisit, hreason, hmodel, fun later hlater => ?_⟩
  -- Only singles among the constraints before were switched off, and this is none of them.
  have hnodup : (done ++ id :: rest).Nodup := hids ▸ Model.nodup_activeConstraints hm hfits _
  have hcandidate : later ∈ p.candidates m := hids ▸ List.mem_append_right done hlater
  have hon : m.isActive later = true := Model.isActive_of_mem_activeConstraints hcandidate
  have hnew : (p.singles m done).any (·.constraint.index == later.index) = false := by
    rw [Bool.eq_false_iff]
    intro hany
    exact (List.nodup_append.mp hnodup).2.2 later (any_singles.mp hany).1 later hlater rfl
  rw [hmodel, hfolded, isActive_foldAll, hon, hnew]
  rfl

/-- The upper bound of `10⁻⁷ * x` gives `x` an infinite bound that restricts nothing. Its
    lower bound gives another one that no value respects, and the run stops there. -/
theorem model_of_run_error_overflow :
    ∃ (m : Model Float) (done rest : List ConstraintId) (id : ConstraintId) (r : Run Float),
      m = Model.empty.after [.addVariable {},
        .addConstraintTo rootBlock (.term ⟨0⟩ 2) ⟨none, some 6⟩,
        .addConstraintTo rootBlock (.term ⟨0⟩ 1e-7) ⟨some 1e304, some 1e305⟩] ∧
      standard.candidates m = done ++ id :: rest ∧
      standard.visitAll { model := m } done = .ok r ∧ (standard.run m).model = r.model ∧
      ∀ later ∈ id :: rest, (standard.run m).model.isActive later = true := by
  set m : Model Float := Model.empty.after [.addVariable {},
    .addConstraintTo rootBlock (.term ⟨0⟩ 2) ⟨none, some 6⟩,
    .addConstraintTo rootBlock (.term ⟨0⟩ 1e-7) ⟨some 1e304, some 1e305⟩] with hm
  have hfits : m.Fits := ⟨by decide +kernel, by decide +kernel, by decide +kernel⟩
  cases h : (standard.run m).result with
  | ok report =>
      have hfails : (standard.run m).result.isOk = false := by decide +kernel
      rw [h] at hfails
      cases hfails
  | error e =>
      rcases model_of_run_error rfl ⟨_, hm.symm⟩ hfits h with
        ⟨done, id, rest, r, stopped, hids, hdone, -, -, hmodel, hactive⟩
      exact ⟨m, done, rest, id, r, rfl, hids, hdone, hmodel, hactive⟩

end Pass

end Monotone

end Presolve
