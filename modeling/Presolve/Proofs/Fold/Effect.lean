import Mathlib.Algebra.BigOperators.Group.List.Basic
import Presolve.Proofs.Fold.Finding

/-!
# The Effect of a Visit

What looking at a constraint comes to. If the constraint is a single that can be
folded, the numbers it implies are merged into the bounds of its variable, the
value of the variable is moved between the merged bounds, and the constraint is
switched off. Otherwise nothing changes. The steps of the program do this one
side at a time, with an early return at every turn, and the lemmas below go
through the steps once so that nothing else has to.

## Main definitions

* `Counts`: The counts of a report.
* `Variable.impose`: A variable after bounds are imposed on it.
* `Pass.fold`, `Pass.foldAll`: A model after singles are folded.
* `Pass.singles`: The singles among some constraints.
* `Pass.tally`: What a constraint adds to the counts.

## Theorems

* `Run.tighten_ok`, `Run.impose_ok`, `Run.deactivate_ok`, `Run.repair_ok`,
  `Run.foldSingle_ok`: What the steps come to.
* `Run.visit_ok`: What looking at a constraint comes to.
* `Run.accepts_of_visit`: A visit that succeeds accepts its constraint.
* `Pass.fold_rereads`: A pass finds the same after folding.
-/

namespace Presolve

open Scalar OrderedScalar

/-- The counts of a report. -/
@[ext]
structure Counts where
  visited : Nat := 0
  deactivated : Nat := 0
  degenerate : Nat := 0
  skippedNonlinear : Nat := 0
  skippedNonSingle : Nat := 0

namespace Counts

/-- Counts are added one by one. -/
instance : Add Counts where
  add a b := {
    visited := a.visited + b.visited
    deactivated := a.deactivated + b.deactivated
    degenerate := a.degenerate + b.degenerate
    skippedNonlinear := a.skippedNonlinear + b.skippedNonlinear
    skippedNonSingle := a.skippedNonSingle + b.skippedNonSingle }

instance : Zero Counts := ⟨{}⟩

instance : AddCommMonoid Counts where
  add_assoc a b c := Counts.ext (Nat.add_assoc ..) (Nat.add_assoc ..) (Nat.add_assoc ..)
    (Nat.add_assoc ..) (Nat.add_assoc ..)
  zero_add a := Counts.ext (Nat.zero_add _) (Nat.zero_add _) (Nat.zero_add _) (Nat.zero_add _)
    (Nat.zero_add _)
  add_zero _ := rfl
  add_comm a b := Counts.ext (Nat.add_comm ..) (Nat.add_comm ..) (Nat.add_comm ..)
    (Nat.add_comm ..) (Nat.add_comm ..)
  nsmul := nsmulRec

end Counts

variable {α : Type}

/-- The counts of a report, without the changes. -/
def Report.counts (r : Report α) : Counts where
  visited := r.visited
  deactivated := r.deactivated
  degenerate := r.degenerate
  skippedNonlinear := r.skippedNonlinear
  skippedNonSingle := r.skippedNonSingle

variable [Scalar α]

/-- A variable after a number is put onto one side of it. -/
def Variable.tighten (v : Variable α) (side : Side) (x : Option α) : Variable α :=
  { v with bounds := v.bounds.set side (side.merge (v.bounds.get side) x) }

/-- A variable after bounds are imposed on it. Its value is moved between the
    bounds it then has. -/
def Variable.impose (v : Variable α) (b : Bounds α) : Variable α :=
  { v with
    bounds := v.bounds.merge b
    value := v.value.map (v.bounds.merge b).repair }

namespace Pass

/-- A model after a single is folded. -/
def fold (p : Pass α) (m : Model α) (s : Single α) : Model α :=
  (m.modifyVariable s.var (·.impose (p.imposed s))).modifyConstraint s.constraint
    fun c => { c with active := false }

/-- A model after singles are folded one after the other. -/
def foldAll (p : Pass α) (m : Model α) (ss : List (Single α)) : Model α := ss.foldl p.fold m

/-- The singles that a pass finds among some constraints. -/
def singles (p : Pass α) (m : Model α) (ids : List ConstraintId) : List (Single α) :=
  ids.filterMap (p.single? m)

/-- What a constraint adds to the counts, by what it is found to be. -/
def tally (p : Pass α) : Finding α → Counts
  | .nonlinear _ => { visited := 1, skippedNonlinear := 1 }
  | .nonSingle _ => { visited := 1, skippedNonSingle := 1 }
  | .single s =>
    { visited := 1, deactivated := 1, degenerate := if p.isDegenerate s.coefficient then 1 else 0 }

/-- What a constraint adds to the counts of a run over a model. -/
def tallyAt (p : Pass α) (m : Model α) (id : ConstraintId) : Counts :=
  (p.finding m id).toOption.elim 0 p.tally

end Pass

theorem Model.setBound_ok {m : Model α} {id : VariableId} {v : Variable α}
    (hv : m.variableAt id = .ok v) {side : Side} {x : α} (hx : IsNumber x)
    (hbound : side.isUnbounding x = false) :
    m.setBound id side (some x)
      = .ok (m.modifyVariable id fun v => { v with bounds := v.bounds.set side (some x) }) := by
  have hfilter : (some x).filter (!side.isUnbounding ·) = some x := by
    rw [Option.filter_some, hbound]
    rfl
  rw [Model.setBound, hv]
  change (if (some x).any isNaN = true then _ else _) = _
  rw [Option.any_some, if_neg (Bool.eq_false_iff.mp hx), hfilter]
  rfl

theorem Model.setValue_ok {m : Model α} {id : VariableId} {v : Variable α}
    (hv : m.variableAt id = .ok v) {x : α} (hx : IsNumber x) :
    m.setValue id (some x) = .ok (m.modifyVariable id fun v => { v with value := some x }) := by
  have hfilter : (some x).filter isNaN = none := by
    rw [Option.filter_some, hx]
    rfl
  rw [Model.setValue, hfilter, hv]
  change (if (v.fixed && false) = true then _ else _) = _
  rw [Bool.and_false]
  rfl

omit [Scalar α] in
theorem Model.setConstraintActive_ok {m : Model α} {id : ConstraintId} {c : Constraint α}
    (hc : m.constraintAt id = .ok c) (active : Bool) :
    m.setConstraintActive id active = .ok (m.modifyConstraint id fun c => { c with active }) := by
  rw [Model.setConstraintActive, hc]
  rfl

/-- Putting on a side what makes no difference leaves a variable as it is. -/
theorem Variable.tighten_eq_self {v : Variable α} {side : Side} {x : Option α}
    (h : side.merge (v.bounds.get side) x = v.bounds.get side) : v.tighten side x = v := by
  rw [tighten, h, Bounds.set_get]

theorem Variable.Sound.tighten {v : Variable α} (h : v.Sound) (side : Side) {x : Option α}
    (hx : ∀ a ∈ x, IsNumber a) : (v.tighten side x).Sound := by
  refine h.setBounds (Bounds.hasNaN_set h.bounds fun a ha => ?_)
  exact (Side.mem_merge ha).elim ((Bounds.hasNaN_iff _).mp h.bounds side a) (hx a)

/-- Imposing bounds puts a number onto each side, in either order. -/
theorem Variable.tighten_tighten (v : Variable α) (side : Side) (b : Bounds α) :
    (v.tighten side (b.get side)).tighten side.flip (b.get side.flip)
      = { v with bounds := v.bounds.merge b } := by
  cases side <;> rfl

namespace Run

variable {r : Run α} {constraint : ConstraintId} {var : VariableId} {side : Side}

/-- A number that restricts can be made the bound of a variable. -/
theorem recordBound_ok {v : Variable α} (hv : r.model.variableAt var = .ok v)
    (previous : Option α) {x : α} (hx : IsNumber x) (hbound : side.isUnbounding x = false) :
    ∃ r', r.recordBound constraint var side previous x = .ok r' ∧
      r'.model = r.model.modifyVariable var
        (fun v => { v with bounds := v.bounds.set side (some x) }) ∧
      r'.report.counts = r.report.counts := by
  rw [recordBound, Model.setBound_ok hv hx hbound]
  exact ⟨_, rfl, rfl, rfl⟩

/-- A number can be made the value of a variable. -/
theorem recordValue_ok {v : Variable α} (hv : r.model.variableAt var = .ok v) (previous : α) {x : α}
    (hx : IsNumber x) :
    ∃ r', r.recordValue var previous x = .ok r' ∧
      r'.model = r.model.modifyVariable var (fun v => { v with value := some x }) ∧
      r'.report.counts = r.report.counts := by
  rw [recordValue, Model.setValue_ok hv hx]
  exact ⟨_, rfl, rfl, rfl⟩

omit [Scalar α] in
/-- A constraint that exists can be switched off. -/
theorem deactivate_ok {c : Constraint α} (hc : r.model.constraintAt constraint = .ok c)
    (var : VariableId) (k : α) (degenerate : Bool) :
    ∃ r', r.deactivate constraint var k degenerate = .ok r' ∧
      r'.model = r.model.modifyConstraint constraint (fun c => { c with active := false }) ∧
      r'.report.counts = r.report.counts + { deactivated := 1 } := by
  rw [deactivate, Model.setConstraintActive_ok hc]
  exact ⟨_, rfl, rfl, rfl⟩

theorem satisfiable_of_tighten {r' : Run α} {x : α}
    (h : r.tighten constraint var side x = .ok r') :
    side.isUnbounding x = true ∨ isFinite x = true := by
  unfold tighten at h
  split at h
  · exact Or.inl ‹_›
  · split at h
    · cases h
    · rename_i hfinite
      rw [Bool.not_eq_true, Bool.not_eq_false'] at hfinite
      exact Or.inr hfinite

/-- The bound of a single on one side restricts the side it is scaled to. -/
theorem tightenImplied_eq (r : Run α) (s : Single α) (side : Side) :
    r.tightenImplied s.constraint s.var s.coefficient s.constant side s.bounds
      = match s.number (side.scaled s.coefficient) with
        | none => .ok r
        | some x => r.tighten s.constraint s.var (side.scaled s.coefficient) x := by
  rw [tightenImplied, Single.number, Side.scaled_scaled]
  cases s.bounds.get side <;> rfl

theorem satisfiable_of_tightenImplied {half : Run α} {s : Single α}
    (h : r.tightenImplied s.constraint s.var s.coefficient s.constant side s.bounds = .ok half) :
    ∀ x ∈ s.number (side.scaled s.coefficient),
      (side.scaled s.coefficient).isUnbounding x = true ∨ isFinite x = true := by
  intro x hx
  rw [tightenImplied_eq, hx] at h
  exact satisfiable_of_tighten h

theorem satisfiable_of_impose {r' : Run α} {s : Single α}
    (h : r.impose s.constraint s.var s.coefficient s.constant s.bounds = .ok r') :
    s.Satisfiable := by
  unfold impose at h
  split at h
  · cases h
  · rename_i half hhalf
    split at h
    · cases h
    · rename_i both hboth
      -- The two sides of the constraint are scaled to the two sides of the variable.
      intro side
      rw [← side.scaled_scaled s.coefficient]
      cases side.scaled s.coefficient with
      | lower => exact satisfiable_of_tightenImplied hboth
      | upper => exact satisfiable_of_tightenImplied hhalf

/-- Looking at a constraint acts on what the constraint is found to be. -/
theorem visit_eq (p : Pass α) (r : Run α) (id : ConstraintId) :
    r.visit p id = match p.finding r.model id with
      | .error reason => .error ⟨reason, r.countVisit⟩
      | .ok (.nonlinear degree) => .ok (r.countVisit.skipNonlinear id degree)
      | .ok (.nonSingle vars) => .ok (r.countVisit.skipNonSingle id vars)
      | .ok (.single s) =>
        r.countVisit.foldSingle p s.constraint s.var s.coefficient s.constant s.bounds := by
  rw [visit, Pass.finding]
  have hmodel : r.countVisit.model = r.model := rfl
  rw [hmodel]
  cases r.model.constraintAt id with
  | error e => rfl
  | ok c =>
      dsimp only
      cases p.reduce c.body r.model.fixedValue with
      | error e => rfl
      | ok reduced =>
          cases reduced with
          | nonlinear degree => rfl
          | linear form =>
              dsimp only
              cases form.singleTerm <;> rfl

/-- A visit that succeeds accepts its constraint. -/
theorem accepts_of_visit {p : Pass α} {id : ConstraintId} {r' : Run α}
    (h : r.visit p id = .ok r') : p.Accepts r.model id := by
  rw [visit_eq] at h
  split at h
  · cases h
  -- What is left alone is accepted, as it is no single.
  · rename_i hf
    refine ⟨_, hf, fun s hs => ?_⟩
    cases hs
  · rename_i hf
    refine ⟨_, hf, fun s hs => ?_⟩
    cases hs
  · rename_i s hf
    refine ⟨_, hf, fun t ht => ?_⟩
    rw [Finding.single.injEq] at ht
    rw [← ht, Pass.Folds, or_iff_not_imp_left]
    intro hdegenerate
    -- The numbers of a single were imposed, unless it is degenerate.
    rw [foldSingle, if_neg hdegenerate] at h
    split at h
    · cases h
    · rename_i hbounded
      exact satisfiable_of_impose hbounded

end Run

namespace Pass

variable {p : Pass α} {m : Model α} {s : Single α}

/-- Folding moves no number that a variable is fixed at. -/
theorem fixedValue_fold (hfree : m.fixedValue s.var = none) :
    (p.fold m s).fixedValue = m.fixedValue := by
  funext id
  have hvars : (p.fold m s).vars[id.index]? = if s.var.index = id.index
      then (m.vars[id.index]?).map (·.impose (p.imposed s)) else m.vars[id.index]? :=
    Model.vars_modifyVariable _ _ _
  rw [Model.fixedValue, Model.fixedValue, hvars]
  by_cases hid : s.var.index = id.index
  · -- The variable of the single has no fixed number, before or after.
    rw [if_pos hid]
    rw [Model.fixedValue, hid] at hfree
    cases hv : m.vars[id.index]? with
    | none => rfl
    | some v =>
        rw [hv, Option.filter_some] at hfree
        rw [Option.map_some, Option.filter_some, Option.filter_some, hfree]
        cases hfixed : v.fixed with
        | false =>
            simp only [Variable.impose, hfixed, Bool.false_eq_true, if_false, Option.bind_none]
        | true =>
            rw [hfixed, if_pos rfl, Option.bind_some] at hfree
            simp only [Variable.impose, hfixed, if_true, Option.bind_some, hfree, Option.map_none]
  · rw [if_neg hid]

theorem fold_rereads (hfree : m.fixedValue s.var = none) : (p.fold m s).Rereads m where
  fixed := fixedValue_fold hfree
  size := Model.size_vars_modifyVariable _ _
  ranged := by
    intro i
    have hget : (p.fold m s).constraints[i]? = if s.constraint.index = i
        then (m.constraints[i]?).map (fun c => { c with active := false }) else m.constraints[i]? :=
      Model.constraints_modifyConstraint _ _ _
    rw [hget]
    split
    · rw [Option.map_map]
      rfl
    · rfl

end Pass

variable [OrderedScalar α]

theorem Side.eq_of_beq_tighter {s : Side} {a b : α} (h : (a == s.tighter a b) = true) :
    s.tighter a b = a := by
  have hplace := (beq_iff.mp h).2.2
  cases s
  · simp only [tighter] at hplace ⊢
    split at hplace
    · exact absurd hplace (lt_iff.mp ‹a < b›).2.2.ne
    · rw [if_neg ‹¬ a < b›]
  · simp only [tighter] at hplace ⊢
    split at hplace
    · exact absurd hplace (lt_iff.mp ‹b < a›).2.2.ne'
    · rw [if_neg ‹¬ b < a›]

/-- What is as restrictive as a finite number is not the infinity that restricts
    nothing. -/
theorem Side.isUnbounding_eq_false {s : Side} {a x : α} (h : s.Dominates a x)
    (hx : isFinite x = true) : s.isUnbounding a = false := by
  have hinfinite := (isFinite_iff.mp hx).2
  rw [Bool.eq_false_iff]
  intro hunbounding
  cases s
  · simp only [isUnbounding, Bool.and_eq_true, decide_eq_true_eq] at hunbounding
    rw [infinite_of_ge hunbounding.1 hunbounding.2 h] at hinfinite
    cases hinfinite
  · simp only [isUnbounding, Bool.and_eq_true, decide_eq_true_eq] at hunbounding
    rw [infinite_of_le hunbounding.1 hunbounding.2 h] at hinfinite
    cases hinfinite

namespace Run

variable {r : Run α} {constraint : ConstraintId} {var : VariableId} {side : Side} {v : Variable α}

/-- Tightening merges a number into one side. -/
theorem tighten_ok (hv : r.model.variableAt var = .ok v) (hsound : v.Sound) {x : α}
    (hok : side.isUnbounding x = true ∨ isFinite x = true) :
    ∃ r', r.tighten constraint var side x = .ok r' ∧
      r'.model = r.model.modifyVariable var
        (·.tighten side ((some x).filter (!side.isUnbounding ·))) ∧
      r'.report.counts = r.report.counts := by
  rw [tighten]
  by_cases hunbounding : side.isUnbounding x = true
  · rw [if_pos hunbounding, Option.filter_some, hunbounding]
    refine ⟨r, rfl, (Model.modifyVariable_eq_self fun w _ => ?_).symm, rfl⟩
    exact Variable.tighten_eq_self (side.merge_none _)
  · have hfinite := hok.resolve_left hunbounding
    have hx := isNumber_of_finite hfinite
    rw [Bool.not_eq_true] at hunbounding
    have hpassed : ¬ (!isFinite x) = true := by
      rw [hfinite]
      exact Bool.false_ne_true
    rw [if_neg (Bool.eq_false_iff.mp hunbounding), if_neg hpassed, hv, Option.filter_some,
      hunbounding]
    dsimp only
    -- The bound there is afterwards, which is `x` or more restrictive.
    have hmerge : side.merge (v.bounds.get side) (some x)
        = some ((v.bounds.get side).elim x (side.tighter · x)) := by
      cases v.bounds.get side <;> rfl
    have hcurrent : side.Dominates ((v.bounds.get side).elim x (side.tighter · x)) x := by
      cases hprevious : v.bounds.get side with
      | none => exact Side.Dominates.self hx
      | some b =>
          have hb := (Bounds.hasNaN_iff _).mp hsound.bounds side b hprevious
          exact Side.tighter_dominates_right hb hx
    split
    · -- The number there is as restrictive, and nothing is done.
      rename_i hsame
      refine ⟨r, rfl, (Model.modifyVariable_eq_self fun w hw => ?_).symm, rfl⟩
      rw [hv, Except.ok.injEq] at hw
      rw [← hw]
      refine Variable.tighten_eq_self (hmerge.trans ?_)
      cases hprevious : v.bounds.get side with
      | none => rw [hprevious] at hsame; cases hsame
      | some b =>
          rw [hprevious] at hsame
          exact congrArg some (Side.eq_of_beq_tighter hsame)
    · rcases recordBound_ok hv (v.bounds.get side) hcurrent.isNumber.1
        (Side.isUnbounding_eq_false hcurrent hfinite) with ⟨r', hr', hmodel, hcounts⟩
      refine ⟨r', hr', hmodel.trans (Model.modifyVariable_congr fun w hw => ?_), hcounts⟩
      rw [hv, Except.ok.injEq] at hw
      rw [← hw, Variable.tighten]
      exact congrArg (fun b => { v with bounds := v.bounds.set side b }) hmerge.symm

theorem tightenImplied_ok {s : Single α} (hv : r.model.variableAt s.var = .ok v)
    (hsound : v.Sound) (side : Side) (hside : ∀ x ∈ s.number (side.scaled s.coefficient),
      (side.scaled s.coefficient).isUnbounding x = true ∨ isFinite x = true) :
    ∃ r', r.tightenImplied s.constraint s.var s.coefficient s.constant side s.bounds = .ok r' ∧
      r'.model = r.model.modifyVariable s.var
        (·.tighten (side.scaled s.coefficient) (s.implied.get (side.scaled s.coefficient))) ∧
      r'.report.counts = r.report.counts := by
  rw [tightenImplied_eq, Single.implied, Bounds.get_ofSides]
  cases hnumber : s.number (side.scaled s.coefficient) with
  | none =>
      refine ⟨r, rfl, (Model.modifyVariable_eq_self fun w _ => ?_).symm, rfl⟩
      exact Variable.tighten_eq_self (Side.merge_none _ _)
  | some x => exact tighten_ok hv hsound (hside x hnumber)

/-- Imposing a single merges the numbers it implies. -/
theorem impose_ok {s : Single α} (hv : r.model.variableAt s.var = .ok v) (hsound : v.Sound)
    (hsat : s.Satisfiable) :
    ∃ r', r.impose s.constraint s.var s.coefficient s.constant s.bounds = .ok r' ∧
      r'.model = r.model.modifyVariable s.var
        (fun v => { v with bounds := v.bounds.merge s.implied }) ∧
      r'.report.counts = r.report.counts := by
  set side := Side.upper.scaled s.coefficient with hside
  have hnumber := (Bounds.hasNaN_iff _).mp (Single.hasNaN_implied hsat)
  rcases tightenImplied_ok hv hsound .upper (hsat _) with ⟨half, hhalf, hmodel, hcounts⟩
  rw [← hside] at hmodel
  -- The second side meets the variable as the first one has left it.
  have hv' : half.model.variableAt s.var = .ok (v.tighten side (s.implied.get side)) := by
    rw [hmodel]
    exact Model.variableAt_modifyVariable_self _ hv
  rcases tightenImplied_ok hv' (hsound.tighten side (hnumber side)) .lower (hsat _) with
    ⟨both, hboth, hmodel', hcounts'⟩
  refine ⟨both, ?_, ?_, hcounts'.trans hcounts⟩
  · rw [impose, hhalf]
    dsimp only
    rw [hboth]
  · have hflip : Side.lower.scaled s.coefficient = side.flip := Side.scaled_flip .upper _
    rw [hmodel', hmodel, hflip, Model.modifyVariable_modifyVariable]
    simp only [Variable.tighten_tighten]

/-- Repairing moves the value of a variable between its bounds. -/
theorem repair_ok (hv : r.model.variableAt var = .ok v) (hsound : v.Sound) :
    ∃ r', r.repair var = .ok r' ∧
      r'.model = r.model.modifyVariable var
        (fun v => { v with value := v.value.map v.bounds.repair }) ∧
      r'.report.counts = r.report.counts := by
  rw [repair, hv]
  dsimp only
  cases hvalue : v.value with
  | none =>
      refine ⟨r, rfl, (Model.modifyVariable_eq_self fun w hw => ?_).symm, rfl⟩
      rw [hv, Except.ok.injEq] at hw
      rw [← hw, hvalue, Option.map_none, ← hvalue]
  | some previous =>
      have hnumber := hsound.value previous hvalue
      -- A value between the bounds already is not written, so a zero keeps its sign.
      by_cases hsame : (v.bounds.clamp previous == previous) = true
      · dsimp only
        rw [if_pos hsame]
        refine ⟨r, rfl, (Model.modifyVariable_eq_self fun w hw => ?_).symm, rfl⟩
        rw [hv, Except.ok.injEq] at hw
        have hrepair : v.bounds.repair previous = previous := by
          rw [Bounds.repair, if_pos hsame]
        rw [← hw, hvalue, Option.map_some, hrepair, ← hvalue]
      · dsimp only
        rw [if_neg hsame]
        rcases recordValue_ok hv previous (Bounds.place_clamp hsound.bounds hnumber).1 with
          ⟨r', hr', hmodel, hcounts⟩
        refine ⟨r', hr', hmodel.trans (Model.modifyVariable_congr fun w hw => ?_), hcounts⟩
        rw [hv, Except.ok.injEq] at hw
        have hrepair : v.bounds.repair previous = v.bounds.clamp previous := by
          rw [Bounds.repair, if_neg hsame]
        rw [← hw, hvalue, Option.map_some, hrepair]

/-- The bounds of a single are imposed, or passed over if its coefficient is
    degenerate. -/
theorem imposed_ok {p : Pass α} {s : Single α} (hv : r.model.variableAt s.var = .ok v)
    (hsound : v.Sound) (hfolds : p.Folds s) :
    ∃ bounded, (if p.isDegenerate s.coefficient then .ok r.countDegenerate
        else r.impose s.constraint s.var s.coefficient s.constant s.bounds) = .ok bounded ∧
      bounded.model = r.model.modifyVariable s.var
        (fun v => { v with bounds := v.bounds.merge (p.imposed s) }) ∧
      bounded.report.counts = r.report.counts
        + { degenerate := if p.isDegenerate s.coefficient then 1 else 0 } := by
  rw [Pass.imposed]
  by_cases hdegenerate : p.isDegenerate s.coefficient = true
  · simp only [if_pos hdegenerate]
    refine ⟨r.countDegenerate, rfl, (Model.modifyVariable_eq_self fun w _ => ?_).symm, rfl⟩
    rw [Bounds.merge_empty]
  · simp only [if_neg hdegenerate]
    exact impose_ok hv hsound (hfolds.resolve_left hdegenerate)

/-- Folding a single imposes its bounds and switches its constraint off. -/
theorem foldSingle_ok {p : Pass α} {s : Single α} {c : Constraint α}
    (hc : r.model.constraintAt s.constraint = .ok c) (hv : r.model.variableAt s.var = .ok v)
    (hsound : v.Sound) (hfolds : p.Folds s) :
    ∃ r', r.foldSingle p s.constraint s.var s.coefficient s.constant s.bounds = .ok r' ∧
      r'.model = p.fold r.model s ∧
      r'.report.counts = r.report.counts
        + { deactivated := 1, degenerate := if p.isDegenerate s.coefficient then 1 else 0 } := by
  rcases imposed_ok hv hsound hfolds with ⟨bounded, hbounded, hmodel, hcounts⟩
  -- The constraint is still there, as only a variable was changed.
  have hc' : bounded.model.constraintAt s.constraint = .ok c := by
    rw [hmodel]
    exact hc
  rcases deactivate_ok hc' s.var s.coefficient (p.isDegenerate s.coefficient) with
    ⟨done, hdone, hswitched, hcounted⟩
  -- The repair that follows meets the merged bounds, which still hold no NaN.
  have hv' : done.model.variableAt s.var
      = .ok { v with bounds := v.bounds.merge (p.imposed s) } := by
    rw [hswitched, hmodel]
    exact Model.variableAt_modifyVariable_self _ hv
  have hsound' := hsound.setBounds (Bounds.hasNaN_merge hsound.bounds (Pass.hasNaN_imposed hfolds))
  rcases repair_ok hv' hsound' with ⟨repaired, hrepaired, hmodel', hcounts'⟩
  refine ⟨repaired, ?_, ?_, ?_⟩
  · rw [foldSingle, hbounded]
    dsimp only
    rw [hdone]
    dsimp only
    rw [hrepaired]
  · rw [hmodel', hswitched, hmodel, Model.modifyVariable_modifyConstraint,
      Model.modifyVariable_modifyVariable, Pass.fold]
    rfl
  · rw [hcounts', hcounted, hcounts, add_assoc]
    rfl

/-- Looking at a constraint folds it if it is a single, and counts it. -/
theorem visit_ok {p : Pass α} {id : ConstraintId} {f : Finding α} (hsound : r.model.Sound)
    (hf : p.finding r.model id = .ok f)
    (hfolds : ∀ s, f = .single s → s.var.index < r.model.vars.size ∧ p.Folds s) :
    ∃ r', r.visit p id = .ok r' ∧ r'.model = p.foldAll r.model f.single?.toList ∧
      r'.report.counts = r.report.counts + p.tally f := by
  rw [visit_eq, hf]
  cases f with
  | nonlinear degree => exact ⟨_, rfl, rfl, rfl⟩
  | nonSingle vars => exact ⟨_, rfl, rfl, rfl⟩
  | single s =>
      rcases hfolds s rfl with ⟨hlt, hfold⟩
      have hget : r.model.vars[s.var.index]? = some r.model.vars[s.var.index] :=
        Array.getElem?_eq_getElem hlt
      have hv : r.countVisit.model.variableAt s.var = .ok r.model.vars[s.var.index] :=
        Model.variableAt_eq_ok.mpr hget
      rcases Pass.exists_constraintAt_of_finding hf with ⟨c, hc⟩
      rcases foldSingle_ok (r := r.countVisit) hc hv (hsound.vars _ _ hget) hfold with
        ⟨r', hr', hmodel, hcounts⟩
      refine ⟨r', hr', hmodel, ?_⟩
      have hvisit : r.countVisit.report.counts = r.report.counts + { visited := 1 } := rfl
      rw [hcounts, hvisit, add_assoc]
      exact congrArg (r.report.counts + ·) (Counts.ext rfl rfl (Nat.zero_add _) rfl rfl)

end Run

namespace Pass

variable {p : Pass α} {m : Model α} {s : Single α}

theorem sound_impose {v : Variable α} (h : v.Sound) {b : Bounds α} (hb : b.hasNaN = false) :
    (v.impose b).Sound where
  bounds := Bounds.hasNaN_merge h.bounds hb
  value := by
    intro x hx
    rcases Option.map_eq_some_iff.mp hx with ⟨y, hy, rfl⟩
    exact (Bounds.place_repair (Bounds.hasNaN_merge h.bounds hb) (h.value y hy)).1
  fixed := by
    intro hfixed
    rw [Variable.impose, Option.isSome_map]
    exact h.fixed hfixed

theorem sound_fold (h : m.Sound) (hfolds : p.Folds s) : (p.fold m s).Sound :=
  (h.modifyVariable fun _ _ hv => sound_impose hv (hasNaN_imposed hfolds)).switchConstraint _ _

end Pass

end Presolve
