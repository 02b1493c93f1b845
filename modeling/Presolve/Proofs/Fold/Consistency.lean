import Presolve.Proofs.Fold.Locality
import Presolve.Proofs.Model.Numbers
import Presolve.Proofs.Scalar.Absorption

/-!
# Constraints That Do Not Contradict Themselves

One constraint never leaves its variable with a lower bound above the upper one. The two numbers
that it implies are both rounded twice, once in a difference and once in a quotient, and both
steps may overflow. But rounding keeps the order or, in a quotient by a negative number, turns it
around, and then the sides are exchanged as well. So the number for the lower side is not above
the one for the upper side, infinities included. The bounds of a variable can only be crossed by
two constraints, or by a constraint and a bound that was there.

An equality implies one number for both sides. If it is finite then nothing stands in the way of
it on either side, and the variable is held at it. The two bounds of an equality may be zeros of
different signs, so that the numbers are equal and yet not the same value.

## Theorems

* `OrderedScalar.quotient_beq`: Equal numbers have equal differences and quotients.
* `Single.number_beq`: An equality implies one number for both sides.
* `Single.lower_le_upper_implied`: The numbers that restrict the variable are in order.
* `Single.quotient_le_quotient`: The numbers implied are ordered, by the sign of the coefficient.
* `Single.implied_of_equality`: An equality with a finite number restricts both sides to it.
* `Pass.finding_of_reduce`: A form with one term makes a single.
* `Run.bounds_of_visit`: The bounds after a visit.
* `Pass.ordered_of_visit`: What a constraint with two bounds leaves of them.
-/

namespace Presolve

open Scalar OrderedScalar

variable {α : Type} [Scalar α]

section Monotone

variable [MonotoneScalar α]

/-- The order is kept in both directions, so equal numbers have equal differences and
    quotients. -/
theorem OrderedScalar.quotient_beq {a b c k : α} (h : (a == b) = true) (hc : isFinite c = true)
    (hk : isFinite k = true) (hzero : (k == 0) = false) :
    ((a - c) / k == (b - c) / k) = true := by
  have hle : a - c ≤ b - c := MonotoneScalar.sub_le_sub (le_of_beq h) hc
  have hge : b - c ≤ a - c := MonotoneScalar.sub_le_sub (le_of_beq (beq_symm h)) hc
  rcases pos_or_neg (isNumber_of_finite hk) hzero with hpos | hneg
  · exact beq_of_le (MonotoneScalar.div_le_div hle hk hpos) (MonotoneScalar.div_le_div hge hk hpos)
  · exact beq_of_le (MonotoneScalar.div_le_div_of_neg hge hk hneg)
      (MonotoneScalar.div_le_div_of_neg hle hk hneg)

end Monotone

namespace Single

variable {s : Single α}

/-- Numbers that are finite can be respected, and they all restrict the variable. -/
theorem implied_of_finite (h : ∀ side, ∀ x ∈ s.number side, isFinite x = true) :
    s.Satisfiable ∧ ∀ side, s.implied.get side = s.number side := by
  refine ⟨fun side x hx => Or.inr (h side x hx), fun side => ?_⟩
  rw [implied, Bounds.get_ofSides]
  cases hx : s.number side with
  | none => rfl
  | some x =>
      rw [Option.filter_some,
        side.isUnbounding_of_not_infinite (isFinite_iff.mp (h side x hx)).2]
      rfl

variable [MonotoneScalar α] {m : Model α}

/-- The numbers that restrict the variable are in order. -/
theorem lower_le_upper_implied (hs : s.Proper m) (hzero : (s.coefficient == 0) = false) {lo hi : α}
    (hlo : lo ∈ s.implied.lower) (hhi : hi ∈ s.implied.upper) : lo ≤ hi :=
  number_le_number hs hzero (Option.mem_filter_iff.mp hlo).1 (Option.mem_filter_iff.mp hhi).1

/-- What the lower bound of a constraint comes to is not above what the upper one comes to or, if
    the coefficient is negative, not below it. -/
theorem quotient_le_quotient (hs : s.Proper m) (hzero : (s.coefficient == 0) = false) {l u : α}
    (hl : s.bounds.lower = some l) (hu : s.bounds.upper = some u) :
    0 < s.coefficient ∧ (l - s.constant) / s.coefficient ≤ (u - s.constant) / s.coefficient ∨
      s.coefficient < 0 ∧
        (u - s.constant) / s.coefficient ≤ (l - s.constant) / s.coefficient := by
  rcases pos_or_neg (isNumber_of_finite hs.coefficient) hzero with hpos | hneg
  · refine Or.inl ⟨hpos, number_le_number hs hzero ?_ ?_⟩
    · rw [number_of_pos hpos, Option.mem_def, Bounds.get, hl, Option.map_some]
    · rw [number_of_pos hpos, Option.mem_def, Bounds.get, hu, Option.map_some]
  · -- The number for each side comes from the other bound.
    have hpos := not_lt_of_lt hneg
    refine Or.inr ⟨hneg, number_le_number hs hzero ?_ ?_⟩
    · rw [number_of_not_pos hpos, Option.mem_def, Side.flip, Bounds.get, hu, Option.map_some]
    · rw [number_of_not_pos hpos, Option.mem_def, Side.flip, Bounds.get, hl, Option.map_some]

/-- An equality implies a number for both sides, and up to the sign of a zero it is the same. -/
theorem number_beq (hs : s.Proper m) (hzero : (s.coefficient == 0) = false) {l u : α}
    (hl : s.bounds.lower = some l) (hu : s.bounds.upper = some u) (heq : (l == u) = true)
    (side : Side) :
    ∃ x, s.number side = some x ∧ (x == (l - s.constant) / s.coefficient) = true := by
  have hside : ∃ b, s.bounds.get (side.scaled s.coefficient) = some b ∧ (b == l) = true := by
    cases side.scaled s.coefficient with
    | lower => exact ⟨l, hl, beq_self (beq_iff.mp heq).1⟩
    | upper => exact ⟨u, hu, beq_symm heq⟩
  rcases hside with ⟨b, hb, hbl⟩
  refine ⟨_, ?_, quotient_beq hbl hs.constant hs.coefficient hzero⟩
  rw [number, hb, Option.map_some]

/-- An equality that implies a finite number can be folded and restricts both sides to it. -/
theorem implied_of_equality (hs : s.Proper m) (hzero : (s.coefficient == 0) = false) {l u : α}
    (hl : s.bounds.lower = some l) (hu : s.bounds.upper = some u) (heq : (l == u) = true)
    (hfinite : isFinite ((l - s.constant) / s.coefficient) = true) :
    s.Satisfiable ∧ ∃ lo hi, s.implied = ⟨some lo, some hi⟩ ∧ (lo == hi) = true ∧
      (lo == (l - s.constant) / s.coefficient) = true := by
  have hnumber := number_beq hs hzero hl hu heq
  have hall (side : Side) (y : α) (hy : y ∈ s.number side) : isFinite y = true := by
    rcases hnumber side with ⟨z, hz, hbeq⟩
    rw [hz, Option.mem_some_iff] at hy
    rw [← hy, isFinite_congr hbeq]
    exact hfinite
  rcases implied_of_finite hall with ⟨hsatisfiable, hget⟩
  rcases hnumber .lower with ⟨lo, hlo, hlow⟩
  rcases hnumber .upper with ⟨hi, hhi, hhigh⟩
  refine ⟨hsatisfiable, lo, hi, ?_, beq_trans hlow (beq_symm hhigh), hlow⟩
  rw [← hlo, ← hhi, ← hget, ← hget]
  rfl

end Single

namespace Pass

variable {p : Pass α} {m : Model α} {id : ConstraintId}

/-- A constraint whose body reduces to a form with one term is a single. -/
theorem finding_of_reduce {c : Constraint α} (hc : m.constraintAt id = .ok c) {x : VariableId}
    {k d : α} (hform : p.reduce c.body m.fixedValue = .ok (.linear ⟨d, [(x, k)]⟩)) :
    p.finding m id = .ok (.single ⟨id, x, k, d, c.bounds⟩) := by
  rw [finding, hc]
  dsimp only
  rw [hform]
  rfl

end Pass

/-- After a visit that folds a single, the variable has the bounds that it had with those of the
    single imposed on them. -/
theorem Run.bounds_of_visit [OrderedScalar α] {p : Pass α} (hp : p.reduce = Poly.reduce)
    {r r' : Run α} (hm : r.model.Sound) {id : ConstraintId} {s : Single α}
    (hfinding : p.finding r.model id = .ok (.single s)) {v : Variable α}
    (hv : r.model.variableAt s.var = .ok v) (h : r.visit p id = .ok r') :
    ∃ v', r'.model.variableAt s.var = .ok v' ∧ v'.bounds = v.bounds.merge (p.imposed s) := by
  rcases Pass.visit_of_accepts hp hm (accepts_of_visit h) with ⟨next, hnext, hmodel, -⟩
  rw [h, Except.ok.injEq] at hnext
  have hsingles : p.singles r.model [id] = [s] := by
    rw [Pass.singles_cons, Pass.single?_eq_some.mpr hfinding]
    rfl
  refine ⟨v.impose (p.imposed s), ?_, rfl⟩
  rw [hnext, hmodel, hsingles, Model.variableAt_eq_ok, Pass.vars_foldAll,
    Model.variableAt_eq_ok.mp hv, Pass.imposedOn_cons, if_pos rfl]
  rfl

namespace Pass

variable [MonotoneScalar α] {p : Pass α} {m : Model α}

/-- If a constraint with two bounds comes to `k * x + d` with a usable `k`, then what it implies
    for the lower side of `x` is not above what it implies for the upper side. If it is folded in
    the course of a run, and `x` has no bounds by then, `x` gets those implied, and they are in
    order. An equality that implies a finite number can be folded, and `x` has this number on both
    sides. -/
theorem ordered_of_visit (hp : p.reduce = Poly.reduce) (hm : m.Reachable) {id : ConstraintId}
    {c : Constraint α} (hc : m.constraintAt id = .ok c) {l u : α} (hl : c.bounds.lower = some l)
    (hu : c.bounds.upper = some u) {x : VariableId} {k d : α}
    (hform : c.body.reduce m.fixedValue = .ok (.linear ⟨d, [(x, k)]⟩))
    (husable : p.isDegenerate k = false) :
    (0 < k ∧ (l - d) / k ≤ (u - d) / k ∨ k < 0 ∧ (u - d) / k ≤ (l - d) / k) ∧
      ∀ done r v, p.visitAll { model := m } done = .ok r → r.model.variableAt x = .ok v →
        v.bounds = {} →
        (∀ r', r.visit p id = .ok r' → ∃ v', r'.model.variableAt x = .ok v' ∧
          v'.bounds = Single.implied ⟨id, x, k, d, c.bounds⟩ ∧
          ∀ lo ∈ v'.bounds.lower, ∀ hi ∈ v'.bounds.upper, lo ≤ hi) ∧
        (c.toRanged.isEquality = true → isFinite ((l - d) / k) = true →
          ∃ r' v' lo hi, r.visit p id = .ok r' ∧ r'.model.variableAt x = .ok v' ∧
            v'.bounds = ⟨some lo, some hi⟩ ∧ (lo == hi) = true ∧
            (lo == (l - d) / k) = true) := by
  set s : Single α := ⟨id, x, k, d, c.bounds⟩
  have hfinding : p.finding m id = .ok (.single s) := finding_of_reduce hc (hp ▸ hform)
  have hs : s.Proper m := proper_of_finding hp hm.sound hfinding
  have hzero := beq_zero_of_usable husable
  refine ⟨s.quotient_le_quotient hs hzero hl hu, fun done r v hdone hv hfree => ?_⟩
  rcases sound_rereads_of_visitAll hp hm.sound hdone with ⟨hsound, hreread⟩
  have hagain : p.finding r.model id = .ok (.single s) :=
    (finding_rereads hreread p id).trans hfinding
  -- The variable had no bounds, so what it gets are those of the single.
  have himplied (r' : Run α) (h : r.visit p id = .ok r') :
      ∃ v', r'.model.variableAt x = .ok v' ∧ v'.bounds = s.implied := by
    rcases Run.bounds_of_visit hp hsound hagain hv h with ⟨v', hv', hbounds⟩
    refine ⟨v', hv', ?_⟩
    rw [hbounds, hfree, imposed, husable]
    rfl
  refine ⟨fun r' h => ?_, fun heq hfinite => ?_⟩
  · rcases himplied r' h with ⟨v', hv', hbounds⟩
    refine ⟨v', hv', hbounds, fun lo hlo hi hhi => ?_⟩
    rw [hbounds] at hlo hhi
    exact s.lower_le_upper_implied hs hzero hlo hhi
  · rw [Ranged.isEquality, Bounds.isPoint, hl, hu] at heq
    rcases s.implied_of_equality hs hzero hl hu heq hfinite with
      ⟨hsatisfiable, lo, hi, hpoint, hequal, hvalue⟩
    have haccepts : p.Accepts r.model id := by
      refine ⟨_, hagain, fun t ht => ?_⟩
      cases ht
      exact Or.inr hsatisfiable
    rcases visit_of_accepts hp hsound haccepts with ⟨r', h, -⟩
    rcases himplied r' h with ⟨v', hv', hbounds⟩
    exact ⟨r', v', lo, hi, h, hv', hbounds.trans hpoint, hequal, hvalue⟩

/-- Two constraints are folded after `2 * w ≤ 6`. One is `-1.5 * y * x + 0.1 = 0.7` with `y` fixed
    at `2`, and it holds `x` at one number. The other one keeps `-10⁻⁷ * z - 10³⁰⁸` between `-10³⁰⁸`
    and `1.5 * 10³⁰⁸`. There a difference overflows, and the number for the lower side of `z` is
    an infinity. -/
theorem ordered_of_visit_overflow :
    ∃ (m : Model Float) (c : Constraint Float) (r r' r'' : Run Float) (v' v'' : Variable Float)
      (lo hi : Float),
      m = (Model.empty : Model Float).after [.addVariable { value := some 2, fixed := true },
        .addVariable {}, .addVariable {}, .addVariable {},
        .addConstraintTo rootBlock (.term ⟨2⟩ 2) ⟨none, some 6⟩,
        .addConstraintTo rootBlock ⟨0.1, [], [⟨#v[⟨0⟩, ⟨1⟩], -1.5⟩], []⟩ ⟨some 0.7, some 0.7⟩,
        .addConstraintTo rootBlock (.affine [(⟨3⟩, -1e-7)] (-1e308))
          ⟨some (-1e308), some 1.5e308⟩] ∧
      standard.visitAll { model := m } [⟨0⟩] = .ok r ∧
      r.visit standard ⟨1⟩ = .ok r' ∧ r'.model.variableAt ⟨1⟩ = .ok v' ∧
      v'.bounds = ⟨some lo, some hi⟩ ∧ (lo == hi) = true ∧ (lo == (0.7 - 0.1) / -3) = true ∧
      m.constraintAt ⟨2⟩ = .ok c ∧
      r.visit standard ⟨2⟩ = .ok r'' ∧ r''.model.variableAt ⟨3⟩ = .ok v'' ∧
      (1.5e308 - -1e308) / -1e-7 ≤ ((-1e308 - -1e308) / -1e-7 : Float) ∧
      isInfinite (1.5e308 - -1e308 : Float) = true ∧
      v''.bounds = Single.implied ⟨⟨2⟩, ⟨3⟩, -1e-7, -1e308, c.bounds⟩ ∧
      ∀ lo ∈ v''.bounds.lower, ∀ hi ∈ v''.bounds.upper, lo ≤ hi := by
  set m : Model Float := Model.empty.after [.addVariable { value := some 2, fixed := true },
    .addVariable {}, .addVariable {}, .addVariable {},
    .addConstraintTo rootBlock (.term ⟨2⟩ 2) ⟨none, some 6⟩,
    .addConstraintTo rootBlock ⟨0.1, [], [⟨#v[⟨0⟩, ⟨1⟩], -1.5⟩], []⟩ ⟨some 0.7, some 0.7⟩,
    .addConstraintTo rootBlock (.affine [(⟨3⟩, -1e-7)] (-1e308)) ⟨some (-1e308), some 1.5e308⟩]
    with hm
  have hread (id : ConstraintId) {l u d k : Float} {x : VariableId}
      (hbounds : (m.constraintAt id).toOption.map (fun c => (c.bounds.lower, c.bounds.upper))
        = some (some l, some u))
      (hform : (m.constraintAt id).toOption.map (fun c => c.body.parts? m.fixedValue)
        = some (some (d, [(x, k)]))) :
      ∃ c, m.constraintAt id = .ok c ∧ c.bounds.lower = some l ∧ c.bounds.upper = some u ∧
        c.body.reduce m.fixedValue = .ok (.linear ⟨d, [(x, k)]⟩) := by
    rcases exists_ok_of_map hbounds with ⟨c, hc, hsides⟩
    rcases Prod.mk.inj hsides with ⟨hl, hu⟩
    rw [hc] at hform
    exact ⟨c, hc, hl, hu, Poly.reduce_of_parts (Option.some.inj hform)⟩
  rcases hread ⟨1⟩ (l := 0.7) (u := 0.7) (d := 0.1) (k := -3) (x := ⟨1⟩) (by decide +kernel)
    (by decide +kernel) with ⟨b, hb, hbl, hbu, hbform⟩
  rcases hread ⟨2⟩ (l := -1e308) (u := 1.5e308) (d := -1e308) (k := -1e-7) (x := ⟨3⟩)
    (by decide +kernel) (by decide +kernel) with ⟨c, hc, hcl, hcu, hcform⟩
  rcases exists_ok_of_isOk (show (standard.visitAll { model := m } [⟨0⟩]).isOk = true by
    decide +kernel) with ⟨r, hr⟩
  -- Neither variable has a bound after the first constraint is folded.
  have hfree (x : VariableId) (h : (standard.visitAll { model := m } [⟨0⟩]).toOption.map (fun r =>
      (r.model.variableAt x).toOption.map fun v => (v.bounds.lower, v.bounds.upper))
        = some (some (none, none))) : ∃ v, r.model.variableAt x = .ok v ∧ v.bounds = {} := by
    rw [hr] at h
    rcases exists_ok_of_map (Option.some.inj h) with ⟨v, hv, hsides⟩
    rcases Prod.mk.inj hsides with ⟨hl, hu⟩
    exact ⟨v, hv, show (⟨v.bounds.lower, v.bounds.upper⟩ : Bounds Float) = {} by rw [hl, hu]⟩
  rcases hfree ⟨1⟩ (by decide +kernel) with ⟨v, hv, hvfree⟩
  rcases hfree ⟨3⟩ (by decide +kernel) with ⟨w, hw, hwfree⟩
  have hpoint : b.toRanged.isEquality = true := by
    rw [Ranged.isEquality, Bounds.isPoint, hbl, hbu]
    decide +kernel
  rcases (ordered_of_visit (p := standard) rfl ⟨_, hm.symm⟩ hb hbl hbu hbform
    (by decide +kernel)).2 [⟨0⟩] r v hr hv hvfree with ⟨-, hheld⟩
  rcases hheld hpoint (by decide +kernel) with ⟨r', v', lo, hi, hr', hv', hbounds, heq, hvalue⟩
  rcases ordered_of_visit (p := standard) rfl ⟨_, hm.symm⟩ hc hcl hcu hcform
    (by decide +kernel) with ⟨hordered, hranged⟩
  have hfolds : (standard.visitAll { model := m } [⟨0⟩]).toOption.map
      (fun r => (r.visit standard ⟨2⟩).isOk) = some true := by
    decide +kernel
  rw [hr] at hfolds
  rcases exists_ok_of_isOk (Option.some.inj hfolds) with ⟨r'', hr''⟩
  rcases (hranged [⟨0⟩] r w hr hw hwfree).1 r'' hr'' with ⟨v'', hv'', himplied, hlow⟩
  have hnegative : ¬ (0 : Float) < -1e-7 := by decide +kernel
  have hsides := (hordered.resolve_left fun h => hnegative h.1).2
  exact ⟨m, c, r, r', r'', v', v'', lo, hi, rfl, hr, hr', hv', hbounds, heq, hvalue, hc, hr'',
    hv'', hsides, by decide +kernel, himplied, hlow⟩

end Pass

end Presolve
