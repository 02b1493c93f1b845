import Presolve.Proofs.Fold.Failure
import Presolve.Proofs.Model.Growth
import Presolve.Proofs.Poly.Classification

/-!
# Causes of Failure

Which faults a run can end with if it uses the standard reduction. Every step of a run
asks something of the model that could be refused: that a constraint or a variable
exists, that a new bound is a number, that a new value is one. None of this is refused
in a model that can be built. A run only ever fails because a body has a number in it
that is not finite, or because a constraint implies the infinity that leaves no finite
value on its side.

That the number implied is infinite and not NaN takes the order of the scalars. What is
subtracted is finite and so is what divides, and a number below itself stays below
itself under both.

## Main definitions

* `Side.Excludes`: An infinity that leaves no finite value.
* `Pass.Cause`: A fault that a run can end with.

## Theorems

* `Poly.reduce_eq_error`: The standard reduction has one kind of fault.
* `Single.isNumber_number`: The numbers implied are not NaN.
* `Single.excludes_of_blocked`: A number that cannot be respected is infinite.
* `Single.blocked?_flip`: Only one side is to blame.
* `Pass.cause_of_run_error`: The faults that a run can end with.
-/

namespace Presolve

open Scalar OrderedScalar

variable {α : Type} [Scalar α]

/-- The number is infinite, and as a bound on this side it leaves no finite value. -/
def Side.Excludes : Side → α → Prop
  | lower, x => isInfinite x = true ∧ 0 < x
  | upper, x => isInfinite x = true ∧ x < 0

/-- The standard reduction fails because of a number that is not finite. -/
theorem Poly.reduce_eq_error {p : Poly α} {fixed : FixedValues α} {e : PolyError α}
    (h : p.reduce fixed = .error e) : ∃ x, isFinite x = false ∧ e = .nonFinite x := by
  cases Classified.of_reduce h with
  | written first => exact ⟨_, first.1, rfl⟩
  | overflowed written none_left first => exact ⟨_, first.1, rfl⟩

/-- The faults that a run over a model can end with. -/
inductive Pass.Cause (p : Pass α) (m : Model α) : FoldError α → Prop
  /-- A body of a candidate has a number in it that is not finite, or comes to one. -/
  | nonFinite {id : ConstraintId} {c : Constraint α} {x : α} (candidate : id ∈ p.candidates m)
      (constraint : m.constraintAt id = .ok c)
      (reduce : p.reduce c.body m.fixedValue = .error (.nonFinite x))
      (notFinite : isFinite x = false) : Cause p m (.poly (.nonFinite x))
  /-- A candidate is a single that implies the wrong infinity for one side of its variable,
      while it asks nothing impossible of the other side. -/
  | unsatisfiable {s : Single α} {side : Side} {x : α} (candidate : s.constraint ∈ p.candidates m)
      (finding : p.finding m s.constraint = .ok (.single s))
      (usable : p.isDegenerate s.coefficient = false)
      (number : s.number side = some x) (excludes : side.Excludes x)
      (other : s.blocked? side.flip = none) : Cause p m (.unsatisfiableBound s.constraint x)

/-- What lies beyond an infinity that excludes every value on one side restricts nothing on
    the other side. -/
theorem Side.Excludes.isUnbounding_flip [OrderedScalar α] {side : Side} {x y : α}
    (h : side.Excludes x) (hxy : side.Dominates y x) : side.flip.isUnbounding y = true := by
  cases side
  · refine Bool.and_eq_true_iff.mpr ⟨infinite_of_le h.1 h.2 hxy, ?_⟩
    exact decide_eq_true (lt_of_lt_of_le h.2 hxy)
  · refine Bool.and_eq_true_iff.mpr ⟨infinite_of_ge h.1 h.2 hxy, ?_⟩
    exact decide_eq_true (lt_of_le_of_lt hxy h.2)

section Monotone

variable [MonotoneScalar α] {m : Model α}

namespace Single

variable {s : Single α} {side : Side} {x : α}

/-- The number implied for a side is not NaN, although it may be infinite. -/
theorem isNumber_number (hs : s.Proper m) (hzero : (s.coefficient == 0) = false)
    (hx : x ∈ s.number side) : IsNumber x := by
  rw [number, Option.mem_def, Option.map_eq_some_iff] at hx
  rcases hx with ⟨b, hb, rfl⟩
  have hnumber : IsNumber b := (Bounds.hasNaN_iff _).mp hs.bounds _ b hb
  have hdifference : b - s.constant ≤ b - s.constant :=
    MonotoneScalar.sub_le_sub (le_self hnumber) hs.constant
  rcases pos_or_neg (isNumber_of_finite hs.coefficient) hzero with hpos | hneg
  · exact (le_iff.mp (MonotoneScalar.div_le_div hdifference hs.coefficient hpos)).1
  · exact (le_iff.mp (MonotoneScalar.div_le_div_of_neg hdifference hs.coefficient hneg)).1

/-- A number that no value can respect is the infinity that excludes them all. -/
theorem excludes_of_blocked (hs : s.Proper m) (hzero : (s.coefficient == 0) = false)
    (h : s.blocked? side = some x) : side.Excludes x := by
  rcases Option.filter_eq_some_iff.mp h with ⟨hx, hstuck⟩
  rw [Bool.not_eq_true', Bool.or_eq_false_iff] at hstuck
  have hinfinite : isInfinite x = true := by
    rw [← Bool.not_eq_false]
    intro hbounded
    rw [isFinite_iff.mpr ⟨isNumber_number hs hzero hx, hbounded⟩] at hstuck
    cases hstuck.2
  -- The infinity with the other sign would restrict nothing on this side.
  cases side
  · have hsign := hstuck.1
    rw [Side.isUnbounding, hinfinite, Bool.true_and] at hsign
    exact ⟨hinfinite, (infinite_pos_or_neg hinfinite).resolve_right (of_decide_eq_false hsign)⟩
  · have hsign := hstuck.1
    rw [Side.isUnbounding, hinfinite, Bool.true_and] at hsign
    exact ⟨hinfinite, (infinite_pos_or_neg hinfinite).resolve_left (of_decide_eq_false hsign)⟩

/-- If one side has a number that no value can respect, the other one has none. -/
theorem blocked?_flip (hs : s.Proper m) (hzero : (s.coefficient == 0) = false)
    (h : s.blocked? side = some x) : s.blocked? side.flip = none := by
  have hx := (Option.filter_eq_some_iff.mp h).1
  have hexcludes := excludes_of_blocked hs hzero h
  refine blocked?_eq_none.mpr fun y hy => Or.inl ?_
  exact hexcludes.isUnbounding_flip (dominates_flip hs hzero hy hx)

end Single

namespace Pass

variable {p : Pass α}

/-- A finding is refused because of the body or because of a number implied. -/
theorem cause_of_refusal (hp : p.reduce = Poly.reduce) (hm : m.Sound) {id : ConstraintId}
    (hid : id ∈ p.candidates m) {e : FoldError α} (h : p.refusal? m id = some e) :
    p.Cause m e := by
  rw [refusal?] at h
  split at h
  · rename_i e' hfinding
    cases h
    -- A candidate exists, so the body was looked at.
    have hlt := Model.lt_size_of_isActive (Model.isActive_of_mem_activeConstraints hid)
    have hc : m.constraintAt id = .ok m.constraints[id.index] :=
      Model.constraintAt_eq_ok.mpr (Array.getElem?_eq_getElem hlt)
    rw [finding, hc] at hfinding
    dsimp only at hfinding
    split at hfinding
    · rename_i e'' hreduce
      cases hfinding
      have hfault := hreduce
      rw [hp] at hfault
      rcases Poly.reduce_eq_error hfault with ⟨x, hx, rfl⟩
      exact .nonFinite hid hc hreduce hx
    · cases hfinding
    · split at hfinding <;> cases hfinding
  · rename_i s hfinding
    have hs := proper_of_finding hp hm hfinding
    rcases constraint_of_finding hfinding with rfl
    split at h
    · cases h
    · rename_i husable
      rw [Bool.not_eq_true] at husable
      have hzero := beq_zero_of_usable husable
      rcases Option.map_eq_some_iff.mp h with ⟨x, hx, rfl⟩
      -- The number found first is the one for one of the two sides.
      have hblocked : ∃ side, s.blocked? side = some x := by
        rcases Option.or_eq_some_iff.mp hx with hupper | hlower
        · exact ⟨_, hupper⟩
        · exact ⟨_, hlower.2⟩
      rcases hblocked with ⟨side, hside⟩
      exact .unsatisfiable hid hfinding husable (Option.filter_eq_some_iff.mp hside).1
        (Single.excludes_of_blocked hs hzero hside) (Single.blocked?_flip hs hzero hside)
  · cases h

/-- A run that fails with the standard reduction does so because a candidate has a number in
    its body that is not finite, or because it implies an infinity that excludes every value. -/
theorem cause_of_run_error (hp : p.reduce = Poly.reduce) (hm : m.Reachable) {e : FoldError α}
    (h : (p.run m).result = .error e) : p.Cause m e := by
  rw [run_error_iff hp hm.sound] at h
  rcases List.exists_of_findSome?_eq_some h with ⟨id, hid, hrefusal⟩
  exact cause_of_refusal hp hm.sound hid hrefusal

end Pass

end Monotone

namespace Pass

/-- The quotient that `-1e-7 * x ≥ 1e304` implies is below all finite numbers, and it is an
    upper bound of the variable. The first constraint is folded before the run fails. -/
theorem cause_of_run_error_overflow :
    ∃ (m : Model Float) (e : FoldError Float),
      m = (Model.empty : Model Float).after [.addVariable {},
        .addConstraintTo rootBlock (.term ⟨0⟩ 2) ⟨none, some 6⟩,
        .addConstraintTo rootBlock (.term ⟨0⟩ (-1e-7)) ⟨some 1e304, some 1e305⟩] ∧
      (standard.run m).result = .error e ∧ e.code = "TRANSFORM_UNSATISFIABLE_BOUND" ∧
      standard.Cause m e := by
  set m := (Model.empty : Model Float).after [.addVariable {},
    .addConstraintTo rootBlock (.term ⟨0⟩ 2) ⟨none, some 6⟩,
    .addConstraintTo rootBlock (.term ⟨0⟩ (-1e-7)) ⟨some 1e304, some 1e305⟩] with hm
  have hcode : ((standard.run m).result.mapError FoldError.code).map (fun _ => ())
      = .error "TRANSFORM_UNSATISFIABLE_BOUND" := by decide +kernel
  cases h : (standard.run m).result with
  | ok report =>
      rw [h] at hcode
      cases hcode
  | error e =>
      rw [h] at hcode
      exact ⟨m, e, rfl, h, Except.error.inj hcode, cause_of_run_error rfl ⟨_, hm.symm⟩ h⟩

end Pass

end Presolve
