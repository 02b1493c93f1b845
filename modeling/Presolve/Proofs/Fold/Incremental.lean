import Presolve.Proofs.Fold.Stages
import Presolve.Proofs.Model.Growth

/-!
# Folding before and after an Addition

A model that grows by a constraint can be folded once, when it is complete, or
both before and after. The two ways differ in where the new constraint comes. A
run over the grown model meets it where its block stands in the tree, with other
constraints before and after. A run over the model that was folded before it
grew meets it among those that are left, when bounds have been imposed and values
moved.

Adding a constraint and folding the others commute, so the model that was folded
before it grew is the grown model with some of its candidates folded ahead. That
these are candidates of the grown model needs a comparison of two walks, and
what they are found to be is what they were found to be before it grew.

## Theorems

* `Pass.finding_withConstraint`: Findings are the same after an addition.
* `Pass.foldAll_withConstraint`: Folding before or after an addition.
* `Pass.addConstraintTo_foldAll`: What could be added can be added after folding.
* `Pass.run_addConstraintTo_run`: Folding before and after an addition is folding after it.
-/

namespace Presolve

open Scalar OrderedScalar

variable {α : Type} [Scalar α]

namespace Pass

variable {p : Pass α} {m : Model α} {block : BlockId} {r : Ranged α} {id : ConstraintId}

theorem finding_withConstraint (hid : id.index < m.constraints.size) :
    p.finding (m.withConstraint block r) id = p.finding m id := by
  rw [finding, finding, Model.constraintAt_withConstraint hid]
  rfl

theorem accepts_withConstraint (hid : id.index < m.constraints.size) :
    p.Accepts (m.withConstraint block r) id ↔ p.Accepts m id := by
  rw [Accepts, Accepts, finding_withConstraint hid]

/-- Singles there were before can be folded before or after a constraint is added. -/
theorem foldAll_withConstraint {ss : List (Single α)}
    (hss : ∀ s ∈ ss, s.constraint.index < m.constraints.size) :
    p.foldAll (m.withConstraint block r) ss = (p.foldAll m ss).withConstraint block r := by
  induction ss generalizing m with
  | nil => rfl
  | cons s rest ih =>
      have hfirst : p.fold (m.withConstraint block r) s = (p.fold m s).withConstraint block r :=
        Model.modifyConstraint_withConstraint
          (m := m.modifyVariable s.var (·.impose (p.imposed s))) (hss s List.mem_cons_self) _
      rw [foldAll, List.foldl_cons, hfirst]
      refine ih fun t ht => ?_
      exact (hss t (List.mem_cons_of_mem _ ht)).trans_eq
        (Model.size_constraints_modifyConstraint _ _).symm

/-- What could be added to a model can be added after folding, with the same id. -/
theorem addConstraintTo_foldAll {grown : Model α} (ss : List (Single α))
    (h : m.addConstraintTo block r = .ok (id, grown)) :
    (p.foldAll m ss).addConstraintTo block r
      = .ok (id, (p.foldAll m ss).withConstraint block r) := by
  rcases Model.addConstraintTo_eq_ok.mp h with ⟨⟨b, hb⟩, hnan, hordered, hvars, heq⟩
  rw [Prod.mk.injEq] at heq
  refine Model.addConstraintTo_eq_ok.mpr ⟨⟨b, ?_⟩, hnan, hordered, ?_, ?_⟩
  · rw [Model.blockAt_eq_ok, blocks_foldAll]
    exact Model.blockAt_eq_ok.mp hb
  · rwa [size_vars_foldAll]
  · rw [size_constraints_foldAll, heq.1]

/-- The candidates of a model are those of the grown model that were there before. -/
theorem candidates_eq_filter_withConstraint (p : Pass α) (block : BlockId) (r : Ranged α)
    (hsize : m.constraints.size < UInt32.size) :
    p.candidates m = (p.candidates (m.withConstraint block r)).filter m.isActive :=
  Model.activeConstraints_eq_filter_withConstraint hsize _

theorem lt_size_of_mem_candidates (h : id ∈ p.candidates m) : id.index < m.constraints.size :=
  Model.lt_size_of_isActive (Model.isActive_of_mem_activeConstraints h)

theorem foldable_eq_singles_withConstraint :
    p.foldable m = p.singles (m.withConstraint block r) (p.candidates m) := by
  refine List.filterMap_congr fun id hid => ?_
  rw [single?, single?, finding_withConstraint (lt_size_of_mem_candidates hid)]

variable [OrderedScalar α]

/-- A model that was folded before it grew is the grown model with some of its
    candidates folded ahead. -/
theorem withConstraint_run (hp : p.reduce = Poly.reduce) (hm : m.Sound)
    (hsize : m.constraints.size < UInt32.size) {report : Report α}
    (h : (p.run m).result = .ok report) (block : BlockId) (r : Ranged α) :
    (p.run m).model.withConstraint block r
      = p.foldAll (m.withConstraint block r) (p.singles (m.withConstraint block r)
          ((p.candidates (m.withConstraint block r)).filter m.isActive)) := by
  rw [model_of_run hp hm h, ← candidates_eq_filter_withConstraint p block r hsize,
    ← foldable_eq_singles_withConstraint]
  refine (foldAll_withConstraint fun s hs => ?_).symm
  rcases mem_singles.mp hs with ⟨id, hid, hfinding⟩
  rw [constraint_of_finding hfinding]
  exact lt_size_of_mem_candidates hid

/-- Let a run succeed, and let a constraint be one that could have been added before.
    It can be added after the run with the same id. A further run then succeeds or
    fails as a single run over the grown model does, with the same reason, and if both
    succeed, the models agree. -/
theorem run_addConstraintTo_run (hp : p.reduce = Poly.reduce) (hm : m.Reachable)
    (hsize : m.constraints.size < UInt32.size) {report : Report α}
    (h : (p.run m).result = .ok report) {batch : Model α}
    (hadd : m.addConstraintTo block r = .ok (id, batch)) :
    ∃ incremental, (p.run m).model.addConstraintTo block r = .ok (id, incremental) ∧
      ((∃ report', (p.run incremental).result = .ok report')
        ↔ ∃ report', (p.run batch).result = .ok report') ∧
      (∀ e, (p.run incremental).result = .error e ↔ (p.run batch).result = .error e) ∧
      ∀ report' report'', (p.run incremental).result = .ok report' →
        (p.run batch).result = .ok report'' →
        (p.run incremental).model.Agrees (p.run batch).model := by
  have hsound := hm.sound
  rcases Model.addConstraintTo_eq_ok.mp hadd with ⟨-, hnan, hordered, hvars, hgrown⟩
  rw [(Prod.mk.inj hgrown).2]
  have hsound' := hsound.withConstraint block hnan hordered hvars
  -- The run before the addition has accepted what it folds ahead.
  have hall : ∀ id ∈ (p.candidates (m.withConstraint block r)).filter m.isActive,
      p.Accepts (m.withConstraint block r) id := by
    intro id hid
    rw [← candidates_eq_filter_withConstraint p block r hsize] at hid
    exact (accepts_withConstraint (lt_size_of_mem_candidates hid)).mpr
      (accepts_of_run hp hsound h id hid)
  refine ⟨(p.run m).model.withConstraint block r, ?_, ?_⟩
  · rw [model_of_run hp hsound h]
    exact addConstraintTo_foldAll _ hadd
  · rw [withConstraint_run hp hsound hsize h block r]
    refine ⟨run_ok_foldAll_singles_iff hp hsound' hall,
      fun e => run_error_foldAll_singles_iff hp hsound' hall, fun report' report'' h' hbatch => ?_⟩
    exact agrees_run_foldAll_singles hp hsound' hbatch h'

/-- The constraint `x ≤ 3` comes before `-x ≤ -5` in a single run, because the block of the
    other one is further down, and after it if that one is folded first. The models
    agree, though the two contradict each other. -/
theorem run_addConstraintTo_run_contradiction :
    ∃ m batch incremental : Model Float,
      m = (Model.empty : Model Float).after [.addVariable { value := some 10 },
        .addBlock rootBlock "sub",
        .addConstraintTo ⟨1⟩ (.term ⟨0⟩ (-1)) ⟨none, some (-5)⟩] ∧
      m.addConstraintTo rootBlock (.ofBounds (.term ⟨0⟩ 1) ⟨none, some 3⟩) = .ok (⟨1⟩, batch) ∧
      (standard.run m).model.addConstraintTo rootBlock (.ofBounds (.term ⟨0⟩ 1) ⟨none, some 3⟩)
        = .ok (⟨1⟩, incremental) ∧
      standard.candidates batch = [⟨1⟩, ⟨0⟩] ∧ standard.candidates incremental = [⟨1⟩] ∧
      (standard.run incremental).model.Agrees (standard.run batch).model := by
  set m : Model Float := Model.empty.after [.addVariable { value := some 10 },
    .addBlock rootBlock "sub",
    .addConstraintTo ⟨1⟩ (.term ⟨0⟩ (-1)) ⟨none, some (-5)⟩] with hm
  set r : Ranged Float := .ofBounds (.term ⟨0⟩ 1) ⟨none, some 3⟩
  rcases exists_ok_of_isOk (show (standard.run m).result.isOk = true by decide +kernel) with
    ⟨report, h⟩
  have hadd : m.addConstraintTo rootBlock r = .ok (⟨1⟩, m.withConstraint rootBlock r) :=
    Model.addConstraintTo_eq_ok.mpr ⟨⟨_, rfl⟩, by decide +kernel, by decide +kernel,
      by decide +kernel, rfl⟩
  rcases run_addConstraintTo_run rfl ⟨_, hm.symm⟩ (by decide +kernel) h hadd with
    ⟨incremental, hincremental, hok, -, hagrees⟩
  have hbatch : (standard.run (m.withConstraint rootBlock r)).result.isOk = true := by
    decide +kernel
  rcases exists_ok_of_isOk hbatch with ⟨report'', hreport''⟩
  rcases hok.mpr ⟨report'', hreport''⟩ with ⟨report', hreport'⟩
  have hcandidates : ((standard.run m).model.addConstraintTo rootBlock r).toOption.map
      (fun x => standard.candidates x.2) = some [⟨1⟩] := by decide +kernel
  rw [hincremental] at hcandidates
  exact ⟨m, _, incremental, rfl, hadd, hincremental, by decide +kernel,
    Option.some.inj hcandidates, hagrees report' report'' hreport' hreport''⟩

end Pass

end Presolve
