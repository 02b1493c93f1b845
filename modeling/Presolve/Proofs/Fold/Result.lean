import Presolve.Proofs.Fold.Effect
import Presolve.Proofs.Model.Walk

/-!
# The Result of a Run

What a run over some constraints leaves behind. It succeeds if and only if every
constraint is accepted by the model it starts from, since what is found at a
constraint does not change on the way. If it succeeds, the model is the first
one with all singles folded.

Folding singles can be read off entry by entry. A variable has the bounds of all
its singles imposed on it in their order, so each of its sides holds the tightest
number that was there or was implied, and its value is the first value moved once
between the last bounds. A constraint is switched off if it is one of the
singles. Nothing else is touched.

## Main definitions

* `Variable.imposeAll`: A variable after several bounds are imposed on it.
* `Pass.imposedOn`: The bounds that singles impose on one variable.
* `Pass.foldable`: The singles among the candidates of a run.

## Theorems

* `Pass.visitAll_ok_iff`: A run succeeds if every constraint is accepted.
* `Pass.model_of_visitAll`: The model and the counts after it.
* `Pass.sound_rereads_of_visitAll`: A run changes no finding.
* `Pass.model_of_run`: The model after a run that succeeds.
* `Pass.vars_foldAll`, `Pass.constraints_foldAll`: The entries after folding.
* `Variable.tightest_imposeAll`: The bounds after imposing.
* `Variable.place_imposeAll`: The value after imposing.
-/

namespace Presolve

open Scalar OrderedScalar

variable {α : Type} [Scalar α]

/-- A variable after several bounds are imposed on it, one after the other. -/
def Variable.imposeAll (v : Variable α) (bs : List (Bounds α)) : Variable α :=
  bs.foldl Variable.impose v

theorem Variable.fixed_imposeAll (v : Variable α) (bs : List (Bounds α)) :
    (v.imposeAll bs).fixed = v.fixed := by
  induction bs generalizing v with
  | nil => rfl
  | cons b rest ih => exact ih (v.impose b)

theorem Variable.value_imposeAll_none {v : Variable α} {bs : List (Bounds α)}
    (h : v.value = none) : (v.imposeAll bs).value = none := by
  induction bs generalizing v with
  | nil => exact h
  | cons b rest ih => exact ih (by rw [impose, h, Option.map_none])

namespace Pass

variable {p : Pass α} {m : Model α} {s : Single α}

/-- The bounds that singles impose on the variable at a position. -/
def imposedOn (p : Pass α) (ss : List (Single α)) (i : Nat) : List (Bounds α) :=
  (ss.filter fun s => s.var.index == i).map p.imposed

theorem imposedOn_cons (p : Pass α) (s : Single α) (ss : List (Single α)) (i : Nat) :
    p.imposedOn (s :: ss) i
      = if s.var.index = i then p.imposed s :: p.imposedOn ss i else p.imposedOn ss i := by
  rw [imposedOn, List.filter_cons]
  by_cases hi : s.var.index = i
  · rw [if_pos (beq_iff_eq.mpr hi), if_pos hi, List.map_cons, imposedOn]
  · rw [if_neg (fun h => hi (beq_iff_eq.mp h)), if_neg hi, imposedOn]

theorem exists_of_mem_imposedOn {ss : List (Single α)} {i : Nat} {b : Bounds α}
    (h : b ∈ p.imposedOn ss i) : ∃ s ∈ ss, s.var.index = i ∧ b = p.imposed s := by
  rcases List.mem_map.mp h with ⟨s, hs, rfl⟩
  rw [List.mem_filter, beq_iff_eq] at hs
  exact ⟨s, hs.1, hs.2, rfl⟩

theorem foldAll_append (p : Pass α) (m : Model α) (ss ts : List (Single α)) :
    p.foldAll m (ss ++ ts) = p.foldAll (p.foldAll m ss) ts :=
  List.foldl_append

theorem mem_singles {ids : List ConstraintId} :
    s ∈ p.singles m ids ↔ ∃ id ∈ ids, p.finding m id = .ok (.single s) := by
  simp only [singles, List.mem_filterMap, single?_eq_some]

theorem singles_cons (p : Pass α) (m : Model α) (id : ConstraintId) (ids : List ConstraintId) :
    p.singles m (id :: ids) = (p.single? m id).toList ++ p.singles m ids := by
  rw [singles, List.filterMap_cons]
  cases p.single? m id <;> rfl

theorem singles_rereads {m' : Model α} (h : m'.Rereads m) (p : Pass α) (ids : List ConstraintId) :
    p.singles m' ids = p.singles m ids := by
  rw [singles, singles]
  congr 1
  funext id
  rw [single?, single?, finding_rereads h]

theorem tallyAt_rereads {m' : Model α} (h : m'.Rereads m) (p : Pass α) :
    p.tallyAt m' = p.tallyAt m := by
  funext id
  rw [tallyAt, tallyAt, finding_rereads h]

/-- The singles of accepted constraints of a sound model. -/
theorem proper_folds_of_accepts (hp : p.reduce = Poly.reduce) (hm : m.Sound)
    {ids : List ConstraintId} (hall : ∀ id ∈ ids, p.Accepts m id) (hs : s ∈ p.singles m ids) :
    s.Proper m ∧ p.Folds s := by
  rcases mem_singles.mp hs with ⟨id, hid, hfinding⟩
  rcases hall id hid with ⟨f, hf, hfolds⟩
  rw [hfinding, Except.ok.injEq] at hf
  exact ⟨proper_of_finding hp hm hfinding, hfolds s hf.symm⟩

/-- The bounds that the singles of accepted constraints impose are numbers. -/
theorem hasNaN_of_mem_imposedOn (hp : p.reduce = Poly.reduce) (hm : m.Sound)
    {ids : List ConstraintId} (hall : ∀ id ∈ ids, p.Accepts m id) {i : Nat} :
    ∀ b ∈ p.imposedOn (p.singles m ids) i, b.hasNaN = false := by
  intro b hb
  rcases exists_of_mem_imposedOn hb with ⟨s, hs, -, rfl⟩
  exact hasNaN_imposed (proper_folds_of_accepts hp hm hall hs).2

/-- A variable has the bounds of its own singles imposed on it. -/
theorem vars_foldAll (p : Pass α) (m : Model α) (ss : List (Single α)) (i : Nat) :
    (p.foldAll m ss).vars[i]? = (m.vars[i]?).map (·.imposeAll (p.imposedOn ss i)) := by
  induction ss generalizing m with
  | nil => exact (Option.map_id_fun' ▸ rfl)
  | cons s rest ih =>
      have hvars : (p.fold m s).vars[i]? = if s.var.index = i
          then (m.vars[i]?).map (·.impose (p.imposed s)) else m.vars[i]? :=
        Model.vars_modifyVariable _ _ _
      rw [foldAll, List.foldl_cons]
      -- The first single acts on the entry if it is about this variable.
      refine (ih (p.fold m s)).trans ?_
      rw [hvars, imposedOn_cons]
      by_cases hi : s.var.index = i
      · rw [if_pos hi, if_pos hi, Option.map_map]
        rfl
      · rw [if_neg hi, if_neg hi]

/-- A constraint is switched off if it is one of the singles. -/
theorem constraints_foldAll (p : Pass α) (m : Model α) (ss : List (Single α)) (i : Nat) :
    (p.foldAll m ss).constraints[i]? = (m.constraints[i]?).map fun c =>
      { c with active := c.active && !ss.any (·.constraint.index == i) } := by
  induction ss generalizing m with
  | nil =>
      cases hc : m.constraints[i]? with
      | none => exact hc
      | some c => rw [Option.map_some, List.any_nil, Bool.not_false, Bool.and_true]; exact hc
  | cons s rest ih =>
      have hget : (p.fold m s).constraints[i]? = if s.constraint.index = i
          then (m.constraints[i]?).map (fun c => { c with active := false })
          else m.constraints[i]? := Model.constraints_modifyConstraint _ _ _
      rw [foldAll, List.foldl_cons]
      refine (ih (p.fold m s)).trans ?_
      rw [hget]
      by_cases hi : s.constraint.index = i
      · rw [if_pos hi, Option.map_map, List.any_cons, beq_iff_eq.mpr hi, Bool.true_or]
        simp only [Function.comp_def, Bool.false_and, Bool.not_true, Bool.and_false]
      · rw [if_neg hi, List.any_cons, beq_false_of_ne hi, Bool.false_or]

theorem isActive_foldAll (p : Pass α) (m : Model α) (ss : List (Single α)) (id : ConstraintId) :
    (p.foldAll m ss).isActive id
      = (m.isActive id && !ss.any (·.constraint.index == id.index)) := by
  rw [Model.isActive, Model.isActive, constraints_foldAll]
  cases m.constraints[id.index]? <;> rfl

/-- The singles found among some constraints belong to those constraints. -/
theorem any_singles {ids : List ConstraintId} {id : ConstraintId} :
    (p.singles m ids).any (·.constraint.index == id.index) = true
      ↔ id ∈ ids ∧ ∃ s, p.finding m id = .ok (.single s) := by
  simp only [List.any_eq_true, beq_iff_eq, mem_singles]
  constructor
  · rintro ⟨s, ⟨id', hid', hfinding⟩, hindex⟩
    rw [constraint_of_finding hfinding] at hindex
    have heq : id' = id := Id.index_inj hindex
    rw [heq] at hid' hfinding
    exact ⟨hid', s, hfinding⟩
  · rintro ⟨hid, s, hfinding⟩
    exact ⟨s, ⟨id, hid, hfinding⟩, congrArg Id.index (constraint_of_finding hfinding)⟩

theorem size_vars_foldAll (p : Pass α) (m : Model α) (ss : List (Single α)) :
    (p.foldAll m ss).vars.size = m.vars.size := by
  induction ss generalizing m with
  | nil => rfl
  | cons s rest ih => exact (ih (p.fold m s)).trans (Model.size_vars_modifyVariable _ _)

theorem size_constraints_foldAll (p : Pass α) (m : Model α) (ss : List (Single α)) :
    (p.foldAll m ss).constraints.size = m.constraints.size := by
  induction ss generalizing m with
  | nil => rfl
  | cons s rest ih => exact (ih (p.fold m s)).trans (Model.size_constraints_modifyConstraint _ _)

theorem blocks_foldAll (p : Pass α) (m : Model α) (ss : List (Single α)) :
    (p.foldAll m ss).blocks = m.blocks := by
  induction ss generalizing m with
  | nil => rfl
  | cons s rest ih => exact ih (p.fold m s)

/-- A walk after folding hands out what is still on of the walk before. -/
theorem activeConstraints_foldAll (p : Pass α) (m : Model α) (ss : List (Single α))
    (descend : Bool) : ((p.foldAll m ss).activeConstraints descend).toList
      = (m.activeConstraints descend).toList.filter (p.foldAll m ss).isActive := by
  refine Model.activeConstraints_eq_filter (blocks_foldAll p m ss) (fun id h => ?_) descend
  rw [isActive_foldAll, Bool.and_eq_true] at h
  exact h.1

/-- A walk after folding passes over the constraints of the singles. -/
theorem mem_activeConstraints_foldAll {ss : List (Single α)} {descend : Bool} {id : ConstraintId} :
    id ∈ ((p.foldAll m ss).activeConstraints descend).toList
      ↔ id ∈ (m.activeConstraints descend).toList ∧
        ss.any (·.constraint.index == id.index) = false := by
  rw [activeConstraints_foldAll, List.mem_filter, isActive_foldAll]
  refine and_congr_right fun h => ?_
  rw [Model.isActive_of_mem_activeConstraints h, Bool.true_and, Bool.not_eq_true']

theorem names_foldAll (p : Pass α) (m : Model α) (ss : List (Single α)) :
    (p.foldAll m ss).varNames = m.varNames ∧
      (p.foldAll m ss).constraintNames = m.constraintNames := by
  induction ss generalizing m with
  | nil => exact ⟨rfl, rfl⟩
  | cons s rest ih => exact ih (p.fold m s)

/-- A run that fails does so at one of the constraints, after those before it
    succeeded. -/
theorem visitAll_eq_error {ids : List ConstraintId} {r : Run α} {stopped : Stopped α}
    (h : p.visitAll r ids = .error stopped) :
    ∃ done id rest before, ids = done ++ id :: rest ∧ p.visitAll r done = .ok before ∧
      before.visit p id = .error stopped := by
  induction ids generalizing r with
  | nil => cases h
  | cons id rest ih =>
      rw [visitAll, List.foldlM_cons] at h
      cases hvisit : r.visit p id with
      | error e =>
          -- It failed at the first constraint.
          rw [hvisit] at h
          cases h
          exact ⟨[], id, rest, r, rfl, rfl, hvisit⟩
      | ok next =>
          rw [hvisit] at h
          rcases ih h with ⟨done, id', rest', before, hids, hdone, herror⟩
          refine ⟨id :: done, id', rest', before, ?_, ?_, herror⟩
          · rw [hids, List.cons_append]
          · rw [visitAll, List.foldlM_cons, hvisit]
            exact hdone

/-- A run that succeeds has looked at all candidates. -/
theorem visitAll_of_run {report : Report α} (h : (p.run m).result = .ok report) :
    ∃ r, p.visitAll { model := m } (p.candidates m) = .ok r ∧ (p.run m).model = r.model ∧
      r.report = report := by
  rw [run] at h ⊢
  cases hall : p.visitAll { model := m } (p.candidates m) with
  | error stopped => rw [hall] at h; cases h
  | ok r =>
      rw [hall] at h
      exact ⟨r, rfl, rfl, Except.ok.inj h⟩

/-- A run that fails was stopped at one of the candidates. -/
theorem visitAll_of_run_error {e : FoldError α} (h : (p.run m).result = .error e) :
    ∃ stopped, p.visitAll { model := m } (p.candidates m) = .error stopped ∧
      (p.run m).model = stopped.run.model ∧ stopped.reason = e := by
  rw [run] at h ⊢
  cases hall : p.visitAll { model := m } (p.candidates m) with
  | error stopped =>
      rw [hall] at h
      exact ⟨stopped, rfl, rfl, Except.error.inj h⟩
  | ok r => rw [hall] at h; cases h

/-- The singles among the constraints that a run looks at. -/
def foldable (p : Pass α) (m : Model α) : List (Single α) := p.singles m (p.candidates m)

end Pass

variable [OrderedScalar α]

namespace Variable

variable {v : Variable α} {bs : List (Bounds α)}

/-- Each side of the variable holds the tightest of the number that was there and
    the numbers imposed. -/
theorem tightest_imposeAll (hbs : ∀ b ∈ bs, b.hasNaN = false) {side : Side} {xs : List α}
    (h : side.Tightest xs (v.bounds.get side)) :
    side.Tightest (xs ++ bs.filterMap (·.get side)) ((v.imposeAll bs).bounds.get side) := by
  induction bs generalizing v xs with
  | nil => rwa [List.filterMap_nil, List.append_nil]
  | cons b rest ih =>
      have hb := (Bounds.hasNaN_iff b).mp (hbs b List.mem_cons_self) side
      -- The first number joins the list, and the rest are merged after it.
      have hstep : side.Tightest (xs ++ (b.get side).toList) ((v.impose b).bounds.get side) := by
        rw [Variable.impose, Bounds.get_merge]
        exact h.merge hb
      have hrest := ih (fun c hc => hbs c (List.mem_cons_of_mem _ hc)) hstep
      rw [List.append_assoc] at hrest
      have hcons : (b :: rest).filterMap (·.get side)
          = (b.get side).toList ++ rest.filterMap (·.get side) := by
        rw [List.filterMap_cons]
        cases b.get side <;> rfl
      rw [hcons]
      exact hrest

theorem imposeAll_refines (h : v.Sound) (hbs : ∀ b ∈ bs, b.hasNaN = false) :
    (v.imposeAll bs).bounds.Refines v.bounds := by
  induction bs generalizing v with
  | nil => exact Bounds.refines_self h.bounds
  | cons b rest ih =>
      have hrest := ih (Pass.sound_impose h (hbs b List.mem_cons_self))
        fun c hc => hbs c (List.mem_cons_of_mem _ hc)
      exact hrest.trans (Bounds.merge_refines h.bounds b)

/-- The value is the first one moved once between the last bounds, no matter how
    often it was moved on the way. -/
theorem place_imposeAll (h : v.Sound) (hbs : ∀ b ∈ bs, b.hasNaN = false) (hne : bs ≠ [])
    {x : α} (hx : v.value = some x) :
    ∃ y, (v.imposeAll bs).value = some y ∧ IsNumber y ∧
      place y = (v.imposeAll bs).bounds.clampPlace (place x) := by
  induction bs generalizing v x with
  | nil => exact absurd rfl hne
  | cons b rest ih =>
      have hsound := Pass.sound_impose h (hbs b List.mem_cons_self)
      have hrest (c : Bounds α) (hc : c ∈ rest) : c.hasNaN = false :=
        hbs c (List.mem_cons_of_mem _ hc)
      have hrepair := Bounds.place_repair hsound.bounds (h.value x hx)
      have hvalue : (v.impose b).value = some ((v.impose b).bounds.repair x) := by
        rw [impose, hx, Option.map_some]
      by_cases hnil : rest = []
      · subst hnil
        exact ⟨_, hvalue, hrepair⟩
      · rcases ih hsound hrest hnil hvalue with ⟨y, hy, hnumber, hplace⟩
        refine ⟨y, hy, hnumber, ?_⟩
        -- The move between the bounds at this point does not matter to the last one.
        rw [hplace, hrepair.2, Bounds.clampPlace_of_refines (imposeAll_refines hsound hrest)]
        rfl

end Variable

namespace Pass

variable {p : Pass α} {m : Model α} {s : Single α}

/-- A model after all singles of some constraints are folded is still sound, and
    a pass finds the same in it. -/
theorem foldAll_sound_rereads {ss : List (Single α)} (h : m.Sound)
    (hproper : ∀ s ∈ ss, m.fixedValue s.var = none ∧ p.Folds s) :
    (p.foldAll m ss).Sound ∧ (p.foldAll m ss).Rereads m := by
  induction ss generalizing m with
  | nil => exact ⟨h, .refl m⟩
  | cons s rest ih =>
      rcases hproper s List.mem_cons_self with ⟨hfree, hfolds⟩
      have hreread := fold_rereads (p := p) hfree
      have hrest := ih (sound_fold h hfolds) fun t ht => by
        rw [hreread.fixed]
        exact hproper t (List.mem_cons_of_mem _ ht)
      exact ⟨hrest.1, hrest.2.trans hreread⟩

/-- The singles of accepted constraints can be folded in this way. -/
theorem sound_rereads_foldAll_singles (hp : p.reduce = Poly.reduce) (hm : m.Sound)
    {ids : List ConstraintId} (hall : ∀ id ∈ ids, p.Accepts m id) :
    (p.foldAll m (p.singles m ids)).Sound ∧ (p.foldAll m (p.singles m ids)).Rereads m :=
  foldAll_sound_rereads hm fun _ hs =>
    (proper_folds_of_accepts hp hm hall hs).imp_left Single.Proper.free

/-- What an accepted constraint of a sound model comes to. -/
theorem visit_of_accepts (hp : p.reduce = Poly.reduce) {id : ConstraintId} {r : Run α}
    (hm : r.model.Sound) (h : p.Accepts r.model id) :
    ∃ r', r.visit p id = .ok r' ∧ r'.model = p.foldAll r.model (p.singles r.model [id]) ∧
      r'.report.counts = r.report.counts + p.tallyAt r.model id ∧
      r'.model.Sound ∧ r'.model.Rereads r.model := by
  rcases h with ⟨f, hf, hfolds⟩
  have hproper (s : Single α) (hs : f = .single s) : s.Proper r.model :=
    proper_of_finding hp hm (hs ▸ hf)
  rcases Run.visit_ok hm hf fun s hs => ⟨(hproper s hs).var_lt, hfolds s hs⟩ with
    ⟨r', hr', hmodel, hcounts⟩
  -- The next visits need a sound model in which they find what this one found.
  have hkept : r'.model.Sound ∧ r'.model.Rereads r.model := by
    rw [hmodel]
    refine foldAll_sound_rereads hm fun s hs => ?_
    have hsingle := Finding.single?_eq_some.mp (Option.mem_toList.mp hs)
    exact ⟨(hproper s hsingle).free, hfolds s hsingle⟩
  refine ⟨r', hr', ?_, ?_, hkept⟩
  · rw [hmodel, singles_cons, single?, hf]
    exact congrArg (p.foldAll r.model) (List.append_nil _).symm
  · rw [hcounts, tallyAt, hf]
    rfl

/-- A run over accepted constraints succeeds and folds their singles. -/
theorem visitAll_ok (hp : p.reduce = Poly.reduce) {ids : List ConstraintId} {r : Run α}
    (hm : r.model.Sound) (hall : ∀ id ∈ ids, p.Accepts r.model id) :
    ∃ r', p.visitAll r ids = .ok r' ∧ r'.model = p.foldAll r.model (p.singles r.model ids) ∧
      r'.report.counts = r.report.counts + (ids.map (p.tallyAt r.model)).sum := by
  induction ids generalizing r with
  | nil => exact ⟨r, rfl, rfl, (add_zero _).symm⟩
  | cons id rest ih =>
      rcases visit_of_accepts hp hm (hall id List.mem_cons_self) with
        ⟨next, hnext, hmodel, hcounts, hsound, hreread⟩
      -- What is found at the other constraints is what was found before.
      have hrest := ih hsound fun id' hid' =>
        (accepts_rereads hreread p id').mpr (hall id' (List.mem_cons_of_mem _ hid'))
      rw [singles_rereads hreread, tallyAt_rereads hreread] at hrest
      rcases hrest with ⟨r', hr', hmodel', hcounts'⟩
      refine ⟨r', ?_, ?_, ?_⟩
      · rw [visitAll, List.foldlM_cons, hnext]
        exact hr'
      · rw [hmodel', hmodel, ← foldAll_append, singles_cons p _ id rest, singles_cons, singles,
          List.filterMap_nil, List.append_nil]
      · rw [hcounts', hcounts, List.map_cons, List.sum_cons, add_assoc]

/-- A run that succeeds accepts every constraint. -/
theorem accepts_of_visitAll (hp : p.reduce = Poly.reduce) {ids : List ConstraintId} {r r' : Run α}
    (hm : r.model.Sound) (h : p.visitAll r ids = .ok r') : ∀ id ∈ ids, p.Accepts r.model id := by
  induction ids generalizing r with
  | nil => exact fun id hid => absurd hid List.not_mem_nil
  | cons id rest ih =>
      rw [visitAll, List.foldlM_cons] at h
      cases hvisit : r.visit p id with
      | error e => rw [hvisit] at h; cases h
      | ok next =>
          rw [hvisit] at h
          -- What the visit succeeded at was accepted, and so folded as expected.
          have haccepts := Run.accepts_of_visit hvisit
          rcases visit_of_accepts hp hm haccepts with ⟨next', hnext', -, -, hsound, hreread⟩
          rw [hvisit, Except.ok.injEq] at hnext'
          subst hnext'
          intro id' hid'
          rcases List.mem_cons.mp hid' with rfl | hid'
          · exact haccepts
          · exact (accepts_rereads hreread p id').mp (ih hsound h id' hid')

/-- A run succeeds if and only if every constraint is accepted at its start. -/
theorem visitAll_ok_iff (hp : p.reduce = Poly.reduce) {ids : List ConstraintId} {r : Run α}
    (hm : r.model.Sound) :
    (∃ r', p.visitAll r ids = .ok r') ↔ ∀ id ∈ ids, p.Accepts r.model id := by
  constructor
  · rintro ⟨r', h⟩
    exact accepts_of_visitAll hp hm h
  · intro hall
    rcases visitAll_ok hp hm hall with ⟨r', hr', -⟩
    exact ⟨r', hr'⟩

/-- The model and the counts that a run leaves which succeeds. -/
theorem model_of_visitAll (hp : p.reduce = Poly.reduce) {ids : List ConstraintId} {r r' : Run α}
    (hm : r.model.Sound) (h : p.visitAll r ids = .ok r') :
    r'.model = p.foldAll r.model (p.singles r.model ids) ∧
      r'.report.counts = r.report.counts + (ids.map (p.tallyAt r.model)).sum := by
  rcases visitAll_ok hp hm (accepts_of_visitAll hp hm h) with ⟨r'', hr'', hmodel, hcounts⟩
  rw [h, Except.ok.injEq] at hr''
  rw [hr'']
  exact ⟨hmodel, hcounts⟩

/-- A run that succeeds leaves a sound model in which a pass finds what it found at
    its start. -/
theorem sound_rereads_of_visitAll (hp : p.reduce = Poly.reduce) {ids : List ConstraintId}
    {r r' : Run α} (hm : r.model.Sound) (h : p.visitAll r ids = .ok r') :
    r'.model.Sound ∧ r'.model.Rereads r.model := by
  rw [(model_of_visitAll hp hm h).1]
  exact sound_rereads_foldAll_singles hp hm (accepts_of_visitAll hp hm h)

/-- A run that succeeds has folded all singles among its candidates. -/
theorem model_of_run (hp : p.reduce = Poly.reduce) (hm : m.Sound) {report : Report α}
    (h : (p.run m).result = .ok report) : (p.run m).model = p.foldAll m (p.foldable m) := by
  rcases visitAll_of_run h with ⟨r, hr, hmodel, -⟩
  exact hmodel.trans (model_of_visitAll hp hm hr).1

/-- The counts of a run that succeeds are those of its candidates. -/
theorem counts_of_run (hp : p.reduce = Poly.reduce) (hm : m.Sound) {report : Report α}
    (h : (p.run m).result = .ok report) :
    report.counts = ((p.candidates m).map (p.tallyAt m)).sum := by
  rcases visitAll_of_run h with ⟨r, hr, -, hreport⟩
  rw [← hreport, (model_of_visitAll hp hm hr).2]
  exact zero_add _

theorem accepts_of_run (hp : p.reduce = Poly.reduce) (hm : m.Sound) {report : Report α}
    (h : (p.run m).result = .ok report) : ∀ id ∈ p.candidates m, p.Accepts m id := by
  rcases visitAll_of_run h with ⟨r, hr, -, -⟩
  exact accepts_of_visitAll hp hm hr

end Pass

end Presolve
