import Mathlib.Tactic.Linarith
import Presolve.Model.Feasible
import Presolve.Proofs.Fold.Result
import Presolve.Proofs.Model.Walk
import Presolve.Proofs.Poly.Exact

/-!
# Equivalent Models

A run poses the same problem in another form. Over the rational numbers a single
holds exactly if its variable lies within the bounds that the single implies, so
an assignment that is feasible before the run respects all bounds imposed by it,
and an assignment that is feasible after it satisfies all constraints that were
switched off for their bounds. A constraint whose coefficient is degenerate is
switched off without a bound, so the way back is open only if there was none.

## Main definitions

* `Single.Holds`: An assignment satisfies a single.

## Theorems

* `Single.contains_implied_iff`: A single is its implied bounds.
* `Pass.holds_iff_of_finding`: A single is the constraint it was found in.
* `Variable.contains_imposeAll_iff`: Imposed bounds are respected one by one.
* `Pass.not_degenerate_of_count`: A count of zero rules degenerate ones out.
* `Pass.feasible_foldAll_iff`: What it takes to be feasible after folding.
* `Pass.feasible_run`: A run keeps the feasible assignments, and gains none.
-/

namespace Presolve

open Scalar OrderedScalar

/-- The bound divided by the coefficient restricts the variable as the bound
    restricts the body, on the side that the sign of the coefficient selects. -/
theorem Side.dominates_div_iff {k : ℚ} (hk : k ≠ 0) (c x b : ℚ) (side : Side) :
    side.Dominates x ((b - c) / k) ↔ (side.scaled k).Dominates (k * x + c) b := by
  -- Dividing by a negative number turns the inequality and the side around.
  rcases lt_or_gt_of_ne hk with hneg | hpos
  · have hscaled : side.scaled k = side.flip := if_neg hneg.le.not_gt
    rw [hscaled]
    cases side with
    | lower =>
        change (b - c) / k ≤ x ↔ k * x + c ≤ b
        rw [div_le_iff_of_neg hneg]
        constructor <;> intro h <;> linarith
    | upper =>
        change x ≤ (b - c) / k ↔ b ≤ k * x + c
        rw [le_div_iff_of_neg hneg]
        constructor <;> intro h <;> linarith
  · have hscaled : side.scaled k = side := if_pos hpos
    rw [hscaled]
    cases side with
    | lower =>
        change (b - c) / k ≤ x ↔ b ≤ k * x + c
        rw [div_le_iff₀ hpos]
        constructor <;> intro h <;> linarith
    | upper =>
        change x ≤ (b - c) / k ↔ k * x + c ≤ b
        rw [le_div_iff₀ hpos]
        constructor <;> intro h <;> linarith

namespace Single

/-- The assignment puts the multiple of the variable plus the constant between
    the bounds. -/
def Holds (x : Assignment ℚ) (s : Single ℚ) : Prop :=
  s.bounds.Contains (s.coefficient * x s.var + s.constant)

/-- A single holds if and only if its variable lies within the implied bounds. -/
theorem contains_implied_iff {s : Single ℚ} (hk : s.coefficient ≠ 0) (x : Assignment ℚ) :
    s.implied.Contains (x s.var) ↔ s.Holds x := by
  -- No rational number is infinite, so none is passed over.
  have hget (side : Side) : s.implied.get side = s.number side := by
    rw [implied, Bounds.get_ofSides]
    cases s.number side with
    | none => rfl
    | some y => cases side <;> rfl
  rw [Holds, Bounds.contains_iff, Bounds.contains_iff]
  constructor
  · intro h side b hb
    have hnumber : (b - s.constant) / s.coefficient ∈ s.number (side.scaled s.coefficient) := by
      rw [number, Side.scaled_scaled, hb]
      rfl
    have hside := h (side.scaled s.coefficient) _ (hget _ ▸ hnumber)
    rwa [Side.dominates_div_iff hk, Side.scaled_scaled] at hside
  · intro h side y hy
    rw [hget, number] at hy
    rcases Option.map_eq_some_iff.mp hy with ⟨b, hb, rfl⟩
    exact (Side.dominates_div_iff hk _ _ _ _).mpr (h _ b hb)

end Single

/-- Imposed bounds are respected if they are respected one by one. -/
theorem Variable.contains_imposeAll_iff {α : Type} [Scalar α] [OrderedScalar α] {v : Variable α}
    (h : v.Sound) {bs : List (Bounds α)} (hbs : ∀ b ∈ bs, b.hasNaN = false) {x : α} :
    (v.imposeAll bs).bounds.Contains x ↔ v.bounds.Contains x ∧ ∀ b ∈ bs, b.Contains x := by
  induction bs generalizing v with
  | nil => exact ⟨fun hv => ⟨hv, fun b hb => absurd hb List.not_mem_nil⟩, fun hv => hv.1⟩
  | cons b rest ih =>
      have hb := hbs b List.mem_cons_self
      have hrest := ih (Pass.sound_impose h hb) fun c hc => hbs c (List.mem_cons_of_mem _ hc)
      have hmerge : (v.impose b).bounds.Contains x ↔ v.bounds.Contains x ∧ b.Contains x :=
        Bounds.contains_merge_iff h.bounds hb
      rw [List.forall_mem_cons, ← and_assoc, ← hmerge]
      exact hrest

namespace Pass

section Counting

variable {α : Type} [Scalar α] [OrderedScalar α] {p : Pass α} {m : Model α}

theorem degenerate_sum (cs : List Counts) : cs.sum.degenerate = (cs.map (·.degenerate)).sum := by
  induction cs with
  | nil => rfl
  | cons c rest ih =>
      rw [List.sum_cons, List.map_cons, List.sum_cons, ← ih]
      rfl

/-- A run that counts no degenerate constraint has folded none. -/
theorem not_degenerate_of_count (hp : p.reduce = Poly.reduce) (hm : m.Sound) {report : Report α}
    (h : (p.run m).result = .ok report) (hcount : report.degenerate = 0) {s : Single α}
    (hs : s ∈ p.foldable m) : p.isDegenerate s.coefficient = false := by
  rcases mem_singles.mp hs with ⟨id, hid, hfinding⟩
  -- A sum of counts is zero only if each of them is.
  have hzero : report.counts.degenerate = 0 := hcount
  rw [counts_of_run hp hm h, degenerate_sum, List.map_map,
    List.sum_eq_zero_iff_forall_eq_nat] at hzero
  have htally := hzero _ (List.mem_map_of_mem hid)
  rw [Function.comp_apply, tallyAt, hfinding] at htally
  rw [Bool.eq_false_iff]
  intro hdegenerate
  simp only [Except.toOption, Option.elim_some, tally, hdegenerate, if_true, Nat.one_ne_zero]
    at htally

omit [OrderedScalar α] in
/-- Nothing is imposed on a variable that is fixed at a number. -/
theorem imposedOn_eq_nil {ss : List (Single α)} (hfree : ∀ s ∈ ss, m.fixedValue s.var = none)
    {id : VariableId} {a : α} (h : m.fixedValue id = some a) : p.imposedOn ss id.index = [] := by
  rw [List.eq_nil_iff_forall_not_mem]
  intro b hb
  rcases exists_of_mem_imposedOn hb with ⟨s, hs, hindex, -⟩
  rw [Id.index_inj hindex.symm, hfree s hs] at h
  exact Option.some_ne_none a h.symm

end Counting

variable {p : Pass ℚ} {m : Model ℚ} {x : Assignment ℚ}

/-- Under an assignment that agrees with the fixed numbers, a single is the
    constraint it was found in. -/
theorem holds_iff_of_finding (hp : p.reduce = Poly.reduce) (hx : m.fixedValue.Agrees x)
    {id : ConstraintId} {c : Constraint ℚ} (hc : m.constraintAt id = .ok c) {s : Single ℚ}
    (h : p.finding m id = .ok (.single s)) : s.Holds x ↔ c.toRanged.Holds x := by
  rcases finding_eq_single h with ⟨c', form, hc', hform, hterm, hconstant, hbounds, -⟩
  rw [hc, Except.ok.injEq] at hc'
  rw [hp, ← hc'] at hform
  -- The body has the value of its linear form, which has one term.
  have hvalue : c.body.value x = s.coefficient * x s.var + s.constant := by
    rw [Poly.value_reduce hform hx, LinearForm.value_eq, LinearForm.terms_of_singleTerm hterm,
      ← hconstant, termsValue, List.map_singleton, List.sum_singleton, add_comm]
  rw [Single.Holds, Ranged.Holds, hvalue, hbounds, hc']

theorem agrees_of_feasible (h : m.Feasible x) : m.fixedValue.Agrees x := by
  intro id a ha
  rcases Option.bind_eq_some_iff.mp ha with ⟨v, hv, hvalue⟩
  rw [Option.filter_eq_some_iff] at hv
  have hadmits := h.1 id v (Model.variableAt_eq_ok.mpr hv.1)
  exact Option.some.inj ((hadmits.2 hv.2).symm.trans hvalue)

/-- A feasible assignment satisfies the singles that a run looks at. -/
theorem holds_of_feasible (hp : p.reduce = Poly.reduce) (hx : m.Feasible x) {s : Single ℚ}
    (hs : s ∈ p.foldable m) : s.Holds x := by
  rcases mem_singles.mp hs with ⟨id, hid, hfinding⟩
  rcases finding_eq_single hfinding with ⟨c, -, hc, -⟩
  rw [holds_iff_of_finding hp (agrees_of_feasible hx) hc hfinding]
  exact hx.2 id (Model.mem_activeConstraints_true hid) c hc

theorem ne_zero_of_not_degenerate {k : ℚ} (h : p.isDegenerate k = false) : k ≠ 0 :=
  beq_eq_false_iff_ne.mp (beq_zero_of_usable h)

/-- A single that holds imposes bounds that its variable respects. -/
theorem contains_imposed_of_holds {s : Single ℚ} (h : s.Holds x) :
    (p.imposed s).Contains (x s.var) := by
  rw [imposed]
  cases hdegenerate : p.isDegenerate s.coefficient with
  | true =>
      refine ⟨fun l hl => ?_, fun u hu => ?_⟩
      · exact absurd hl (Option.not_mem_none l)
      · exact absurd hu (Option.not_mem_none u)
  | false => exact (Single.contains_implied_iff (ne_zero_of_not_degenerate hdegenerate) x).mpr h

/-- A variable after imposing admits a value if it did before and the imposed
    bounds contain it. -/
theorem admits_imposeAll_iff {ss : List (Single ℚ)} (hfree : ∀ s ∈ ss, m.fixedValue s.var = none)
    (hnumber : ∀ (i : Nat), ∀ b ∈ p.imposedOn ss i, b.hasNaN = false) {id : VariableId}
    {v : Variable ℚ} (hv : m.vars[id.index]? = some v) (hsound : v.Sound) (a : ℚ) :
    (v.imposeAll (p.imposedOn ss id.index)).Admits a
      ↔ v.Admits a ∧ ∀ b ∈ p.imposedOn ss id.index, b.Contains a := by
  by_cases hfixed : v.fixed = true
  · -- Nothing is imposed on a variable that is fixed.
    rcases Option.isSome_iff_exists.mp (hsound.fixed hfixed) with ⟨x, hx⟩
    have hvalue : m.fixedValue id = some x := by
      rw [Model.fixedValue, hv, Option.filter_some, if_pos hfixed, Option.bind_some, hx]
    rw [imposedOn_eq_nil hfree hvalue]
    exact (and_iff_left fun b hb => absurd hb List.not_mem_nil).symm
  · rw [Variable.Admits, Variable.Admits, Variable.contains_imposeAll_iff hsound (hnumber _),
      Variable.fixed_imposeAll]
    have hfree' (y : ℚ) (x : Option ℚ) : v.fixed = true → x = some y :=
      fun h => absurd h hfixed
    refine ⟨fun h => ⟨⟨h.1.1, hfree' _ _⟩, h.1.2⟩, fun h => ⟨⟨h.1.1, h.2⟩, hfree' _ _⟩⟩

/-- A model after folding is feasible if the model before it is, at the
    constraints that are still on, and the imposed bounds contain their values. -/
theorem feasible_foldAll_iff (hp : p.reduce = Poly.reduce) (hm : m.Sound)
    (hall : ∀ id ∈ p.candidates m, p.Accepts m id) :
    (p.foldAll m (p.foldable m)).Feasible x ↔
      (∀ id v, m.variableAt id = .ok v → v.Admits (x id)) ∧
      (∀ s ∈ p.foldable m, (p.imposed s).Contains (x s.var)) ∧
      ∀ id ∈ (m.activeConstraints true).toList,
        (p.foldable m).any (·.constraint.index == id.index) = false →
        ∀ c, m.constraintAt id = .ok c → c.toRanged.Holds x := by
  have hproper (s : Single ℚ) (hs : s ∈ p.foldable m) := proper_folds_of_accepts hp hm hall hs
  have hadmits {id : VariableId} {v : Variable ℚ} (hv : m.vars[id.index]? = some v) :=
    admits_imposeAll_iff (fun s hs => (hproper s hs).1.free)
      (fun i => hasNaN_of_mem_imposedOn hp hm hall) hv (hm.vars _ v hv) (x id)
  constructor
  -- Each entry after folding is one before it with its own bounds imposed.
  · rintro ⟨hvars, hconstraints⟩
    have hvariable {id : VariableId} {v : Variable ℚ} (hv : m.vars[id.index]? = some v) := by
      refine (hadmits hv).mp (hvars id _ (Model.variableAt_eq_ok.mpr ?_))
      rw [vars_foldAll, hv, Option.map_some]
    refine ⟨fun id v hv => (hvariable (Model.variableAt_eq_ok.mp hv)).1, fun s hs => ?_,
      fun id hid hkept c hc => ?_⟩
    · have hget := Array.getElem?_eq_getElem (hproper s hs).1.var_lt
      refine (hvariable hget).2 _ (List.mem_map_of_mem (List.mem_filter.mpr ⟨hs, ?_⟩))
      exact beq_self_eq_true _
    · -- A constraint that is not among the singles is as it was.
      have hon : (p.foldAll m (p.foldable m)).constraintAt id
          = .ok { c with active := c.active && !false } := by
        rw [Model.constraintAt_eq_ok, constraints_foldAll, Model.constraintAt_eq_ok.mp hc,
          Option.map_some, hkept]
      have hholds := hconstraints id (mem_activeConstraints_foldAll.mpr ⟨hid, hkept⟩) _ hon
      exact hholds
  · rintro ⟨hvars, himposed, hconstraints⟩
    refine ⟨fun id v' hv' => ?_, fun id hid c' hc' => ?_⟩
    · rw [Model.variableAt_eq_ok, vars_foldAll, Option.map_eq_some_iff] at hv'
      rcases hv' with ⟨v, hv, rfl⟩
      refine (hadmits hv).mpr ⟨hvars id v (Model.variableAt_eq_ok.mpr hv), fun b hb => ?_⟩
      rcases exists_of_mem_imposedOn hb with ⟨s, hs, hindex, rfl⟩
      rw [← Id.index_inj hindex]
      exact himposed s hs
    · rw [Model.constraintAt_eq_ok, constraints_foldAll, Option.map_eq_some_iff] at hc'
      rcases hc' with ⟨c, hc, rfl⟩
      rcases mem_activeConstraints_foldAll.mp hid with ⟨hid, hkept⟩
      exact hconstraints id hid hkept c (Model.constraintAt_eq_ok.mpr hc)

/-- No feasible assignment is lost. -/
theorem feasible_foldAll (hp : p.reduce = Poly.reduce) (hm : m.Sound)
    (hall : ∀ id ∈ p.candidates m, p.Accepts m id) (hx : m.Feasible x) :
    (p.foldAll m (p.foldable m)).Feasible x := by
  rw [feasible_foldAll_iff hp hm hall]
  exact ⟨hx.1, fun s hs => contains_imposed_of_holds (holds_of_feasible hp hx hs),
    fun id hid _ => hx.2 id hid⟩

/-- An assignment that is feasible after folding was feasible before if it satisfies all
    degenerate singles. -/
theorem feasible_of_foldAll_of_holds (hp : p.reduce = Poly.reduce) (hm : m.Sound)
    (hall : ∀ id ∈ p.candidates m, p.Accepts m id)
    (hholds : ∀ s ∈ p.foldable m, p.isDegenerate s.coefficient = true → s.Holds x)
    (hx : (p.foldAll m (p.foldable m)).Feasible x) : m.Feasible x := by
  have hreread := (sound_rereads_foldAll_singles hp hm hall).2
  have hagrees : m.fixedValue.Agrees x := hreread.fixed ▸ agrees_of_feasible hx
  rcases (feasible_foldAll_iff hp hm hall).mp hx with ⟨hvars, himposed, hconstraints⟩
  refine ⟨hvars, fun id hid c hc => ?_⟩
  cases hfolded : (p.foldable m).any (·.constraint.index == id.index) with
  | false => exact hconstraints id hid hfolded c hc
  | true =>
      rcases any_singles.mp hfolded with ⟨hcandidate, s, hfinding⟩
      have hs : s ∈ p.foldable m := mem_singles.mpr ⟨id, hcandidate, hfinding⟩
      rw [← holds_iff_of_finding hp hagrees hc hfinding]
      cases hdegenerate : p.isDegenerate s.coefficient with
      | true => exact hholds s hs hdegenerate
      | false =>
          -- The bounds imposed for the constraint say the same.
          have hbounds := himposed s hs
          rw [imposed, hdegenerate] at hbounds
          exact (Single.contains_implied_iff (ne_zero_of_not_degenerate hdegenerate) x).mp hbounds

/-- No feasible assignment is gained if no constraint was degenerate. -/
theorem feasible_of_foldAll (hp : p.reduce = Poly.reduce) (hm : m.Sound)
    (hall : ∀ id ∈ p.candidates m, p.Accepts m id)
    (husable : ∀ s ∈ p.foldable m, p.isDegenerate s.coefficient = false)
    (hx : (p.foldAll m (p.foldable m)).Feasible x) : m.Feasible x := by
  refine feasible_of_foldAll_of_holds hp hm hall (fun s hs hdegenerate => ?_) hx
  rw [husable s hs] at hdegenerate
  cases hdegenerate

/-- A run that succeeds loses no feasible assignment, and gains none if it counts
    no degenerate constraint. -/
theorem feasible_run (hp : p.reduce = Poly.reduce) (hm : m.Reachable) {report : Report ℚ}
    (h : (p.run m).result = .ok report) (x : Assignment ℚ) :
    (m.Feasible x → (p.run m).model.Feasible x) ∧
      (report.degenerate = 0 → (p.run m).model.Feasible x → m.Feasible x) := by
  have hall := accepts_of_run hp hm.sound h
  rw [model_of_run hp hm.sound h]
  refine ⟨feasible_foldAll hp hm.sound hall, fun hcount => ?_⟩
  exact feasible_of_foldAll hp hm.sound hall
    fun s hs => not_degenerate_of_count hp hm.sound h hcount hs

/-- The constraint `-2 * x ≤ 6` leaves the same values for `x` after it is folded. -/
theorem feasible_run_negative_coefficient :
    ∃ (p : Pass ℚ) (m : Model ℚ), m = Model.empty.after [.addVariable {},
        .addConstraintTo rootBlock (.term ⟨0⟩ (-2)) ⟨none, some 6⟩] ∧
      (m.Feasible (fun _ => -3) ↔ (p.run m).model.Feasible fun _ => -3) := by
  set m : Model ℚ := Model.empty.after [.addVariable {},
    .addConstraintTo rootBlock (.term ⟨0⟩ (-2)) ⟨none, some 6⟩] with hm
  let p : Pass ℚ := { config := { zeroTolerance := 0 }, reduce := Poly.reduce, valid := by decide }
  rcases exists_ok_of_isOk (show (p.run m).result.isOk = true by decide +kernel) with ⟨report, h⟩
  have hcount : ((p.run m).result.toOption.map (·.degenerate)) = some 0 := by decide +kernel
  rw [h] at hcount
  have hrun := feasible_run rfl ⟨_, hm.symm⟩ h fun _ => -3
  exact ⟨p, m, rfl, hrun.1, hrun.2 (Option.some.inj hcount)⟩

end Pass

end Presolve
