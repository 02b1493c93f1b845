import Presolve.Proofs.Fold.Record
import Presolve.Proofs.Fold.Repeat

/-!
# Runs only Tighten

What a run can do to a model at most, whatever its reduction answers. A bound is kept
or replaced by a finite number that is more restrictive, so a bound there was is never
lost and no new one is infinite. A value is moved, but no variable gains or loses one.
Constraints that the run looks at may be switched off. All else is as it was.

The relation `Model.Tightened` says this, and it is reflexive and transitive, so it
holds of a run as soon as it holds of each single change, even if the run stops half
way between two of them. A reduction that is none may name any variable, one that is
fixed among them. The standard reduction never does, so with it a fixed variable keeps
its bounds and its value.

## Main definitions

* `Variable.Tightened`: What a run may make of a variable.
* `Model.Tightened`: What a run may make of a model.

## Theorems

* `Model.Tightened.trans`: Two runs in a row tighten.
* `Model.Updates.tightened`, `Model.Repairs.tightened`: Recorded changes tighten.
* `Run.tightened_visit`: A visit tightens, whether or not it succeeds.
* `Pass.variableAt_run_of_fixed`: The standard reduction leaves fixed variables alone.
* `Pass.tightened_model_run`: A run tightens, whether or not it succeeds.
* `Pass.tightened_run`: With the standard reduction it also respects what is fixed.
-/

namespace Presolve

open Scalar OrderedScalar

variable {α : Type} [Scalar α]

/-- What a run may make of a variable. -/
structure Variable.Tightened (v v' : Variable α) : Prop where
  /-- A bound there was is still there, or one that is more restrictive. -/
  refines : v'.bounds.Refines v.bounds
  /-- A bound that was not there before is finite. -/
  finite : ∀ side : Side, ∀ x ∈ v'.bounds.get side, x ∈ v.bounds.get side ∨ isFinite x = true
  fixed : v'.fixed = v.fixed
  hasValue : v'.value.isSome = v.value.isSome

/-- What a run over some constraints may make of a model. -/
structure Model.Tightened (m m' : Model α) (ids : List ConstraintId) : Prop where
  vars_size : m'.vars.size = m.vars.size
  vars : ∀ (i : Nat) (v : Variable α), m.vars[i]? = some v →
    ∃ v', m'.vars[i]? = some v' ∧ v.Tightened v'
  constraints_size : m'.constraints.size = m.constraints.size
  /-- A constraint keeps its body and its bounds, and its switch unless it is one of
      those looked at, which may be switched off. -/
  constraints : ∀ (i : Nat) (c : Constraint α), m.constraints[i]? = some c →
    ∃ c', m'.constraints[i]? = some c' ∧ c'.toRanged = c.toRanged ∧
      (c'.active = c.active ∨ c'.active = false ∧ ∃ id ∈ ids, id.index = i)
  blocks : m'.blocks = m.blocks
  varNames : m'.varNames = m.varNames
  constraintNames : m'.constraintNames = m.constraintNames

section Ordered

variable [OrderedScalar α]

theorem Side.Exceeds.dominates {s : Side} {a b : α} (h : s.Exceeds a b) : s.Dominates a b := by
  cases s
  · exact le_of_lt h
  · exact le_of_lt h

/-- A number that is more restrictive than the one it replaces refines the bounds. -/
theorem Bounds.set_refines {b : Bounds α} {s : Side} {x : α} (hb : b.hasNaN = false)
    (hx : ∀ y ∈ b.get s, s.Exceeds x y) : (b.set s (some x)).Refines b := by
  intro t y hy
  by_cases hts : t = s
  · subst hts
    exact ⟨x, get_set_self b t (some x), (hx y hy).dominates⟩
  · -- The other side is as it was.
    rw [s.eq_flip_of_ne hts] at hy ⊢
    rw [get_set_flip]
    exact ⟨y, hy, Side.Dominates.self ((hasNaN_iff b).mp hb _ y hy)⟩

namespace Variable

variable {v v' v'' : Variable α}

theorem Tightened.refl (h : v.Sound) : v.Tightened v where
  refines := Bounds.refines_self h.bounds
  finite _ _ hx := Or.inl hx
  fixed := rfl
  hasValue := rfl

theorem Tightened.trans (h : v.Tightened v') (h' : v'.Tightened v'') : v.Tightened v'' where
  refines := h'.refines.trans h.refines
  finite side x hx := (h'.finite side x hx).elim (h.finite side x) Or.inr
  fixed := h'.fixed.trans h.fixed
  hasValue := h'.hasValue.trans h.hasValue

/-- Replacing a bound by a finite one that is more restrictive. -/
theorem tightened_setBound (h : v.Sound) {side : Side} {x : α}
    (hx : ∀ y ∈ v.bounds.get side, side.Exceeds x y) (hfinite : isFinite x = true) :
    v.Tightened { v with bounds := v.bounds.set side (some x) } where
  refines := Bounds.set_refines h.bounds hx
  finite := by
    intro t y hy
    by_cases hts : t = side
    · subst hts
      rw [Bounds.get_set_self, Option.mem_some_iff] at hy
      exact Or.inr (hy ▸ hfinite)
    · rw [side.eq_flip_of_ne hts, Bounds.get_set_flip, ← side.eq_flip_of_ne hts] at hy
      exact Or.inl hy
  fixed := rfl
  hasValue := rfl

/-- Replacing a value by another one. -/
theorem tightened_setValue (h : v.Sound) (hvalue : v.value.isSome = true) (x : α) :
    v.Tightened { v with value := some x } where
  refines := Bounds.refines_self h.bounds
  finite _ _ hx := Or.inl hx
  fixed := rfl
  hasValue := hvalue.symm

end Variable

namespace Model

variable {m m' m'' : Model α} {ids : List ConstraintId}

theorem Tightened.refl (h : m.Sound) (ids : List ConstraintId) : m.Tightened m ids where
  vars_size := rfl
  vars i v hv := ⟨v, hv, .refl (h.vars i v hv)⟩
  constraints_size := rfl
  constraints _ c hc := ⟨c, hc, rfl, Or.inl rfl⟩
  blocks := rfl
  varNames := rfl
  constraintNames := rfl

theorem Tightened.trans (h : m.Tightened m' ids) (h' : m'.Tightened m'' ids) :
    m.Tightened m'' ids where
  vars_size := h'.vars_size.trans h.vars_size
  vars i v hv := by
    rcases h.vars i v hv with ⟨v', hv', htightened⟩
    rcases h'.vars i v' hv' with ⟨v'', hv'', htightened'⟩
    exact ⟨v'', hv'', htightened.trans htightened'⟩
  constraints_size := h'.constraints_size.trans h.constraints_size
  constraints i c hc := by
    rcases h.constraints i c hc with ⟨c', hc', hranged, hactive⟩
    rcases h'.constraints i c' hc' with ⟨c'', hc'', hranged', hactive'⟩
    refine ⟨c'', hc'', hranged'.trans hranged, ?_⟩
    -- What is off stays off, so the second switch is the first one or off.
    rcases hactive' with hsame | hoff
    · rw [hsame]
      exact hactive
    · exact Or.inr hoff
  blocks := h'.blocks.trans h.blocks
  varNames := h'.varNames.trans h.varNames
  constraintNames := h'.constraintNames.trans h.constraintNames

/-- Changing one variable tightens a model if it tightens that variable. -/
theorem tightened_modifyVariable (hm : m.Sound) (ids : List ConstraintId) {var : VariableId}
    {f : Variable α → Variable α}
    (hf : ∀ v, m.variableAt var = .ok v → v.Sound → v.Tightened (f v)) :
    m.Tightened (m.modifyVariable var f) ids where
  vars_size := size_vars_modifyVariable var f
  vars i v hv := by
    have hsound := hm.vars i v hv
    rw [vars_modifyVariable, hv]
    by_cases hi : var.index = i
    · rw [if_pos hi]
      exact ⟨f v, rfl, hf v (variableAt_eq_ok.mpr (hi ▸ hv)) hsound⟩
    · rw [if_neg hi]
      exact ⟨v, rfl, .refl hsound⟩
  constraints_size := rfl
  constraints _ c hc := ⟨c, hc, rfl, Or.inl rfl⟩
  blocks := rfl
  varNames := rfl
  constraintNames := rfl

/-- Switching off one of the constraints. -/
theorem tightened_switchOff (hm : m.Sound) {id : ConstraintId} (hid : id ∈ ids) :
    m.Tightened (m.modifyConstraint id fun c => { c with active := false }) ids where
  vars_size := rfl
  vars i v hv := ⟨v, hv, .refl (hm.vars i v hv)⟩
  constraints_size := size_constraints_modifyConstraint id _
  constraints i c hc := by
    rw [constraints_modifyConstraint, hc]
    by_cases hi : id.index = i
    · rw [if_pos hi]
      exact ⟨_, rfl, rfl, Or.inr ⟨rfl, id, hid, hi⟩⟩
    · rw [if_neg hi]
      exact ⟨c, rfl, rfl, Or.inl rfl⟩
  blocks := rfl
  varNames := rfl
  constraintNames := rfl

/-- Changes of bounds keep a model sound and tighten it. -/
theorem Updates.tightened {us : List (BoundUpdate α)} (hm : m.Sound) (h : m.Updates us m')
    (ids : List ConstraintId) : m'.Sound ∧ m.Tightened m' ids := by
  induction us generalizing m with
  | nil =>
      rcases (show m = m' from h) with rfl
      exact ⟨hm, .refl hm ids⟩
  | cons u rest ih =>
      rcases h with ⟨hfits, hrest⟩
      have hfirst : m.Tightened (m.applyUpdate u) ids := by
        refine tightened_modifyVariable hm ids fun v hv hsound => ?_
        -- The number replaced is the one that the variable has on this side.
        have hprevious := hfits.previous
        rw [column_variableAt hv, Option.map_some, Option.some.injEq] at hprevious
        exact Variable.tightened_setBound hsound (hprevious ▸ hfits.exceeds) hfits.finite
      have hsound : (m.applyUpdate u).Sound := by
        refine hm.modifyVariable fun v _ hv => hv.setBounds (Bounds.hasNaN_set hv.bounds ?_)
        intro x hx
        exact Option.mem_some_iff.mp hx ▸ isNumber_of_finite hfits.finite
      rcases ih hsound hrest with ⟨hsound', hlater⟩
      exact ⟨hsound', hfirst.trans hlater⟩

/-- Changes of values keep a model sound and tighten it. -/
theorem Repairs.tightened {ws : List (ValueRepair α)} (hm : m.Sound) (h : m.Repairs ws m')
    (ids : List ConstraintId) : m'.Sound ∧ m.Tightened m' ids := by
  induction ws generalizing m with
  | nil =>
      rcases (show m = m' from h) with rfl
      exact ⟨hm, .refl hm ids⟩
  | cons w rest ih =>
      rcases h with ⟨hfits, hrest⟩
      have hfirst : m.Tightened (m.applyRepair w) ids := by
        refine tightened_modifyVariable hm ids fun v hv hsound => ?_
        have hprevious := hfits.previous
        rw [column_variableAt hv, Option.some.injEq] at hprevious
        exact Variable.tightened_setValue hsound (hprevious ▸ rfl) w.current
      have hsound : (m.applyRepair w).Sound := by
        refine hm.modifyVariable fun v _ hv => ⟨hv.bounds, fun x hx => ?_, fun _ => rfl⟩
        exact Option.mem_some_iff.mp hx ▸ hfits.number
      rcases ih hsound hrest with ⟨hsound', hlater⟩
      exact ⟨hsound', hfirst.trans hlater⟩

end Model

namespace Run

variable {p : Pass α} {r : Run α} {ids : List ConstraintId}

/-- Folding a single tightens, wherever it stops. -/
theorem tightened_foldSingle (hm : r.model.Sound) {s : Single α} (hs : s.constraint ∈ ids) :
    r.model.Tightened
      (modelOf (r.foldSingle p s.constraint s.var s.coefficient s.constant s.bounds)) ids := by
  rcases foldSingle_foldsTo hm p s with ⟨us, hus, -, -, hfolds⟩
  rcases hus.tightened hm ids with ⟨hsound, hbounds⟩
  have hdropped := hbounds.trans (Model.tightened_switchOff hsound hs)
  generalize r.foldSingle p s.constraint s.var s.coefficient s.constant s.bounds = result
    at hfolds ⊢
  cases hfolds with
  | kept reason => exact hbounds
  | dropped reason => exact hdropped
  | repaired ws hws hmoved =>
      exact hdropped.trans (hws.tightened (hsound.switchConstraint _ _) ids).2

/-- A visit tightens, whether or not it succeeds. -/
theorem tightened_visit (p : Pass α) (hm : r.model.Sound) {id : ConstraintId} (hid : id ∈ ids) :
    r.model.Tightened (modelOf (r.visit p id)) ids := by
  rw [visit_eq]
  split
  · exact .refl hm ids
  · exact .refl hm ids
  · exact .refl hm ids
  · rename_i s hfinding
    exact tightened_foldSingle (r := r.countVisit) hm (Pass.constraint_of_finding hfinding ▸ hid)

end Run

namespace Pass

variable {p : Pass α} {m : Model α} {ids : List ConstraintId}

/-- Visits tighten, whether or not they all succeed. -/
theorem tightened_visitAll (p : Pass α) {r : Run α} (hm : r.model.Sound)
    {visited : List ConstraintId} (hvisited : ∀ id ∈ visited, id ∈ ids) :
    r.model.Tightened (Run.modelOf (p.visitAll r visited)) ids := by
  induction visited generalizing r with
  | nil => exact .refl hm ids
  | cons id rest ih =>
      have hfirst := Run.tightened_visit p hm (hvisited id List.mem_cons_self)
      have hchanges := r.visit_changes p id
      rw [visitAll, List.foldlM_cons]
      cases hvisit : r.visit p id with
      | error stopped =>
          rw [hvisit] at hfirst
          exact hfirst
      | ok next =>
          rw [hvisit] at hfirst hchanges
          have hrest := ih (r := next) (hm.changes hchanges)
            fun id' hid' => hvisited id' (List.mem_cons_of_mem _ hid')
          exact hfirst.trans hrest

/-- A run tightens, whether or not it succeeds. -/
theorem tightened_model_run (p : Pass α) (hm : m.Sound) :
    m.Tightened (p.run m).model (p.candidates m) := by
  have hall := tightened_visitAll p (r := { model := m }) hm
    fun id (hid : id ∈ p.candidates m) => hid
  rw [run]
  cases hvisited : p.visitAll { model := m } (p.candidates m) with
  | error stopped =>
      rw [hvisited] at hall
      exact hall
  | ok r =>
      rw [hvisited] at hall
      exact hall

end Pass

end Ordered

namespace Pass

variable [MonotoneScalar α] {p : Pass α} {m : Model α}

/-- The standard reduction names no fixed variable, so a run with it leaves them as
    they are. -/
theorem variableAt_run_of_fixed (hp : p.reduce = Poly.reduce) (hm : m.Sound) {var : VariableId}
    {v : Variable α} (hv : m.variableAt var = .ok v) (hfixed : v.fixed = true) :
    (p.run m).model.variableAt var = .ok v := by
  have hget := Model.variableAt_eq_ok.mp hv
  have hsome : (m.fixedValue var).isSome = true := by
    rw [Model.fixedValue, hget, Option.filter_some, if_pos hfixed, Option.bind_some]
    exact (hm.vars _ v hget).fixed hfixed
  have hnone : p.imposedOn (p.singles m (p.settled m)) var.index = [] := by
    refine List.eq_nil_iff_forall_not_mem.mpr fun b hb => ?_
    rcases exists_of_mem_imposedOn hb with ⟨s, hs, hvar, -⟩
    have hfree := (proper_folds_of_accepts hp hm (fun _ => accepts_of_mem_settled) hs).1.free
    rw [Id.index_inj hvar] at hfree
    rw [hfree] at hsome
    cases hsome
  rw [model_run hp hm, Model.variableAt_eq_ok, vars_foldAll, hget, Option.map_some, hnone]
  rfl

/-- A run only tightens, whatever its reduction answers and whether or not it succeeds.
    With the standard reduction a fixed variable is left as it is. -/
theorem tightened_run (p : Pass α) (hm : m.Reachable) :
    m.Tightened (p.run m).model (p.candidates m) ∧
      (p.reduce = Poly.reduce → ∀ var v, m.variableAt var = .ok v → v.fixed = true →
        (p.run m).model.variableAt var = .ok v) := by
  have hsound := hm.sound
  exact ⟨p.tightened_model_run hsound,
    fun hp var v hv hfixed => variableAt_run_of_fixed hp hsound hv hfixed⟩

/-- A reduction that answers `2 * y` plus the constant of the body, whatever the body is. The
    variable `y` is fixed at `7`, and its lower bound was set to infinity. The first constraint
    gives it an upper bound of `3` and moves its value. The constant of the second one is NaN, so
    the run fails there. With the standard reduction the second body is refused and `y` is left
    alone. -/
theorem tightened_run_foreign :
    ∃ (m : Model Float) (p : Pass Float) (y : Variable Float),
      m = (Model.empty : Model Float).after [.addVariable {},
        .addVariable { value := some 7, fixed := true },
        .setBound ⟨1⟩ .lower (some (1 / 0)),
        .addConstraintTo rootBlock (.term ⟨0⟩ 1) ⟨none, some 6⟩,
        .addConstraintTo rootBlock (.ofConstant (0 / 0)) ⟨some 1, some 2⟩] ∧
      p.reduce = (fun body _ => .ok (.linear ⟨body.constant, [(⟨1⟩, 2)]⟩)) ∧
      (p.run m).result.isOk = false ∧ m.Tightened (p.run m).model (p.candidates m) ∧
      m.variableAt ⟨1⟩ = .ok y ∧ y.fixed = true ∧ (standard.run m).result.isOk = false ∧
      m.Tightened (standard.run m).model (standard.candidates m) ∧
      (standard.run m).model.variableAt ⟨1⟩ = .ok y := by
  set m := (Model.empty : Model Float).after [.addVariable {},
    .addVariable { value := some 7, fixed := true },
    .setBound ⟨1⟩ .lower (some (1 / 0)),
    .addConstraintTo rootBlock (.term ⟨0⟩ 1) ⟨none, some 6⟩,
    .addConstraintTo rootBlock (.ofConstant (0 / 0)) ⟨some 1, some 2⟩] with hm
  set p : Pass Float :=
    ⟨.standard, fun body _ => .ok (.linear ⟨body.constant, [(⟨1⟩, 2)]⟩), standard.valid⟩ with hp
  have hreachable : m.Reachable := ⟨_, hm.symm⟩
  have hy : m.variableAt ⟨1⟩ = .ok
      { bounds := ⟨some (1 / 0), none⟩, value := some 7, fixed := true } := by rfl
  rcases tightened_run standard hreachable with ⟨hstandard, hfixed⟩
  exact ⟨m, p, _, rfl, rfl, by decide +kernel, (tightened_run p hreachable).1, hy, rfl,
    by decide +kernel, hstandard, hfixed rfl ⟨1⟩ _ hy rfl⟩

end Pass

end Presolve
