import Presolve.Proofs.Fold.Record
import Presolve.Proofs.Fold.Result
import Presolve.Proofs.Model.Tree
import Presolve.Proofs.Scalar.Double

/-!
# The Report of a Run

That a report is an exact log of the run that wrote it. Replayed in their order on the
model before the run, the recorded changes each find the number that they claim to
replace, and they end in the bounds and the values of the model after the run. The
counts add up and agree with what a walk hands out before and afterwards.

A run that succeeds comes to an entry for each constraint that it looks at. An entry is
either a remark that the constraint was left alone, or the changes of one fold. What an
entry adds to the report and does to the model is said once for each part of them, and
what holds of a run follows by an induction on its entries. As in the record of a single
step nothing is assumed of the reduction.

No constraint is looked at twice, since a walk hands out none twice. This is why no side
is changed twice for one constraint, and why a constraint that was folded is off in the
end, so that the switches tell how many there were.

## Main definitions

* `Entry`: What came of looking at a constraint.
* `Run.enter`: A run after an entry.
* `Entry.Fits`: An entry belongs to a run.
* `Report.Exact`: A report is an exact log of a run.

## Theorems

* `Run.entry_of_visit`, `Pass.entries_of_visitAll`: Runs come to entries.
* `Run.counts_of_entries`, `Run.isActive_of_entries`: What entries add up to.
* `Pass.report_exact`: The report of a run is an exact log of it.
-/

namespace Presolve

open Scalar OrderedScalar

variable {α : Type}

/-- Switching a constraint off. -/
theorem Model.isActive_switchOff (m : Model α) (switched id : ConstraintId) :
    (m.modifyConstraint switched fun c => { c with active := false }).isActive id
      = (m.isActive id && !decide (switched = id)) := by
  rw [isActive, isActive, constraints_modifyConstraint]
  by_cases h : switched = id
  · rw [h, if_pos rfl, decide_eq_true rfl, Bool.not_true, Bool.and_false]
    cases m.constraints[id.index]? <;> rfl
  · rw [if_neg fun hindex => h (Id.index_inj hindex), decide_eq_false h, Bool.not_false,
      Bool.and_true]

/-- Counts of constraints that were looked at: each of them was folded or left alone. -/
structure Counts.Balanced (c : Counts) : Prop where
  visited : c.visited = c.deactivated + c.skippedNonlinear + c.skippedNonSingle
  degenerate : c.degenerate ≤ c.deactivated

namespace Counts

theorem Balanced.zero : (0 : Counts).Balanced := ⟨rfl, Nat.le_refl 0⟩

theorem Balanced.add {a b : Counts} (ha : a.Balanced) (hb : b.Balanced) : (a + b).Balanced where
  visited := by
    change a.visited + b.visited = (a.deactivated + b.deactivated)
      + (a.skippedNonlinear + b.skippedNonlinear) + (a.skippedNonSingle + b.skippedNonSingle)
    have := ha.visited
    have := hb.visited
    omega
  degenerate := Nat.add_le_add ha.degenerate hb.degenerate

end Counts

/-- What came of looking at a constraint. -/
inductive Entry (α : Type) where
  /-- It was left alone because of a product of this many unknowns. -/
  | nonlinear (constraint : ConstraintId) (degree : Nat)
  /-- It was left alone because it speaks of this many variables. -/
  | nonSingle (constraint : ConstraintId) (vars : Nat)
  /-- It was folded, and these changes were made. -/
  | folded (s : Single α) (updates : List (BoundUpdate α)) (repairs : List (ValueRepair α))

namespace Entry

/-- The constraint that was looked at. -/
def constraint : Entry α → ConstraintId
  | nonlinear id _ => id
  | nonSingle id _ => id
  | folded s _ _ => s.constraint

/-- What the constraint was found to be. -/
def finding : Entry α → Finding α
  | nonlinear _ degree => .nonlinear degree
  | nonSingle _ vars => .nonSingle vars
  | folded s _ _ => .single s

/-- The changes of bounds. -/
def updates : Entry α → List (BoundUpdate α)
  | folded _ updates _ => updates
  | _ => []

/-- The changes of values. -/
def repairs : Entry α → List (ValueRepair α)
  | folded _ _ repairs => repairs
  | _ => []

/-- What a fold changes is its variable: each side at most once, and the value at most once. -/
def Local : Entry α → Prop
  | folded s updates repairs =>
    updates.length ≤ 2 ∧ (∀ u ∈ updates, u.var = s.var) ∧ (repairs.map (·.var)).Sublist [s.var]
  | _ => True

/-- The constraint was folded. -/
def isFolded : Entry α → Bool
  | folded .. => true
  | _ => false

/-- Only a fold changes a bound. -/
theorem isFolded_of_mem_updates {e : Entry α} {u : BoundUpdate α} (hu : u ∈ e.updates) :
    e.isFolded = true := by
  cases e with
  | nonlinear id degree => cases hu
  | nonSingle id vars => cases hu
  | folded s updates repairs => rfl

/-- Entries of constraints that differ change no side twice for one constraint. -/
theorem nodup_targets {es : List (Entry α)}
    (htargets : ∀ e ∈ es, (e.updates.map BoundUpdate.target).Nodup)
    (hconstraint : ∀ e ∈ es, ∀ u ∈ e.updates, u.constraint = e.constraint)
    (hnodup : (es.map constraint).Nodup) :
    ((es.flatMap updates).map BoundUpdate.target).Nodup := by
  rw [List.map_flatMap, List.nodup_flatMap]
  refine ⟨htargets, (List.pairwise_map.mp hnodup).imp_of_mem fun he he' hne => ?_⟩
  -- Targets of two entries already differ in the constraint.
  refine List.disjoint_left.mpr fun t ht ht' => hne ?_
  rcases List.mem_map.mp ht with ⟨u, hu, rfl⟩
  rcases List.mem_map.mp ht' with ⟨u', hu', htarget⟩
  rw [← hconstraint _ he u hu, ← hconstraint _ he' u' hu']
  exact (Prod.mk.inj htarget).1.symm

/-- Of constraints that were looked at, those are on that were not folded. -/
theorem length_filter {es : List (Entry α)} {on : ConstraintId → Bool}
    (h : ∀ e ∈ es, on e.constraint = !e.isFolded) :
    ((es.map constraint).filter on).length = es.length - es.countP isFolded := by
  have hleft : es.countP (on ∘ constraint) = es.countP fun e => ¬ e.isFolded = true := by
    refine List.countP_congr fun e he => ?_
    rw [Function.comp_apply, h e he, Bool.not_eq_true', decide_eq_true_eq, Bool.not_eq_true]
  rw [← List.countP_eq_length_filter, List.countP_map, hleft,
    List.length_eq_countP_add_countP isFolded, Nat.add_sub_cancel_left]

end Entry

variable [Scalar α]

theorem Pass.balanced_tally (p : Pass α) (f : Finding α) : (p.tally f).Balanced := by
  cases f with
  | nonlinear degree => exact ⟨rfl, Nat.le_refl 0⟩
  | nonSingle vars => exact ⟨rfl, Nat.le_refl 0⟩
  | single s =>
      refine ⟨rfl, ?_⟩
      change (if p.isDegenerate s.coefficient then 1 else 0) ≤ 1
      split
      · exact Nat.le_refl 1
      · exact Nat.zero_le 1

/-- The run after a constraint was looked at, by what came of it. -/
def Run.enter (p : Pass α) (r : Run α) : Entry α → Run α
  | .nonlinear id degree => r.countVisit.skipNonlinear id degree
  | .nonSingle id vars => r.countVisit.skipNonSingle id vars
  | .folded s updates repairs =>
    (((r.countVisit.countSingle p s).withUpdates updates).dropSingle p s).withRepairs repairs

namespace Run

variable (p : Pass α) (r : Run α) (e : Entry α)

theorem boundUpdates_enter :
    (r.enter p e).report.boundUpdates = r.report.boundUpdates ++ e.updates := by
  cases e with
  | nonlinear id degree => exact (List.append_nil _).symm
  | nonSingle id vars => exact (List.append_nil _).symm
  | folded s updates repairs =>
      simp only [enter, withRepairs, dropSingle, withUpdates, countSingle, Entry.updates]
      split <;> rfl

theorem valueRepairs_enter :
    (r.enter p e).report.valueRepairs = r.report.valueRepairs ++ e.repairs := by
  cases e with
  | nonlinear id degree => exact (List.append_nil _).symm
  | nonSingle id vars => exact (List.append_nil _).symm
  | folded s updates repairs =>
      simp only [enter, withRepairs, dropSingle, withUpdates, countSingle, Entry.repairs]
      split <;> rfl

theorem counts_enter : (r.enter p e).report.counts = r.report.counts + p.tally e.finding := by
  cases e with
  | nonlinear id degree => rfl
  | nonSingle id vars => rfl
  | folded s updates repairs =>
      simp only [enter, withRepairs, dropSingle, withUpdates, countSingle, Entry.finding,
        Pass.tally]
      split <;> rfl

theorem blocks_enter : (r.enter p e).model.blocks = r.model.blocks := by
  cases e with
  | nonlinear id degree => rfl
  | nonSingle id vars => rfl
  | folded s updates repairs =>
      change (repairs.foldl Model.applyRepair _).blocks = _
      rw [Model.foldl_frame Model.blocks Model.applyRepair fun _ _ => rfl]
      change (updates.foldl Model.applyUpdate _).blocks = _
      rw [Model.foldl_frame Model.blocks Model.applyUpdate fun _ _ => rfl, model_countSingle]
      rfl

/-- An entry of a fold switches its constraint off, and no entry any other. -/
theorem isActive_enter (id : ConstraintId) : (r.enter p e).model.isActive id
    = (r.model.isActive id && !(e.isFolded && decide (e.constraint = id))) := by
  cases e with
  | nonlinear id' degree => exact (Bool.and_true _).symm
  | nonSingle id' vars => exact (Bool.and_true _).symm
  | folded s updates repairs =>
      change (repairs.foldl Model.applyRepair _).isActive id = _
      rw [Model.foldl_frame (·.isActive id) Model.applyRepair fun _ _ => rfl]
      change ((updates.foldl Model.applyUpdate _).modifyConstraint s.constraint _).isActive id = _
      rw [Model.isActive_switchOff,
        Model.foldl_frame (·.isActive id) Model.applyUpdate fun _ _ => rfl, model_countSingle]
      rfl

/-- An entry without a fold leaves the model as it is. -/
theorem model_enter_of_not_folded (h : e.isFolded = false) : (r.enter p e).model = r.model := by
  cases e with
  | nonlinear id degree => rfl
  | nonSingle id vars => rfl
  | folded s updates repairs => cases h

end Run

/-- An entry belongs to a run: it has what the pass finds, and its changes can be
    replayed. The changes of bounds are for this constraint, at most one for each
    side, and all changes are of the variable that was folded. -/
structure Entry.Fits (p : Pass α) (r : Run α) (e : Entry α) : Prop where
  finding : p.finding r.model e.constraint = .ok e.finding
  updates : Replays BoundUpdate.Fits BoundUpdate.make r.model.boundTable e.updates
    (r.enter p e).model.boundTable
  repairs : Replays ValueRepair.Fits ValueRepair.make r.model.valueTable e.repairs
    (r.enter p e).model.valueTable
  targets : (e.updates.map BoundUpdate.target).Nodup
  constraint_eq : ∀ u ∈ e.updates, u.constraint = e.constraint
  isLocal : e.Local

section Ordered

variable [OrderedScalar α]

namespace Run

variable {r r' : Run α}

/-- Folding a single comes to an entry for it. -/
theorem entry_of_foldSingle {p : Pass α} {s : Single α} (hsound : r.model.Sound)
    (hfinding : p.finding r.model s.constraint = .ok (.single s))
    (h : r.countVisit.foldSingle p s.constraint s.var s.coefficient s.constant s.bounds = .ok r') :
    ∃ e : Entry α, e.constraint = s.constraint ∧ e.Fits p r ∧ r' = r.enter p e := by
  rcases foldSingle_foldsTo (r := r.countVisit) hsound p s with
    ⟨us, hus, htargets, hvar, hfolds⟩
  rw [h] at hfolds
  cases hfolds with
  | repaired ws hws hmoved =>
      refine ⟨.folded s us ws, rfl, ?_, rfl⟩
      exact {
        finding := hfinding
        updates := hws.boundTable.symm ▸ hus.boundTable
        repairs := hus.valueTable ▸ hws.valueTable
        targets := (BoundUpdate.nodup_targets _ _).sublist htargets
        constraint_eq := fun u hu =>
          BoundUpdate.fst_of_mem_targets (htargets.subset (List.mem_map_of_mem hu))
        isLocal := ⟨List.length_map BoundUpdate.target ▸ htargets.length_le, hvar, hmoved⟩ }

/-- A visit that succeeds comes to an entry for its constraint. -/
theorem entry_of_visit {p : Pass α} {id : ConstraintId} (hsound : r.model.Sound)
    (h : r.visit p id = .ok r') :
    ∃ e : Entry α, e.constraint = id ∧ e.Fits p r ∧ r' = r.enter p e := by
  rw [visit_eq] at h
  split at h
  · cases h
  · rename_i degree hfinding
    cases h
    refine ⟨.nonlinear id degree, rfl, ?_, rfl⟩
    exact ⟨hfinding, rfl, rfl, List.nodup_nil, List.forall_mem_nil _, trivial⟩
  · rename_i vars hfinding
    cases h
    refine ⟨.nonSingle id vars, rfl, ?_, rfl⟩
    exact ⟨hfinding, rfl, rfl, List.nodup_nil, List.forall_mem_nil _, trivial⟩
  · rename_i s hfinding
    have hconstraint := Pass.constraint_of_finding hfinding
    rw [← hconstraint] at hfinding ⊢
    exact entry_of_foldSingle hsound hfinding h

end Run

/-- A run that succeeds comes to one entry for each constraint, in their order. -/
theorem Pass.entries_of_visitAll {p : Pass α} {ids : List ConstraintId} {r r' : Run α}
    (hsound : r.model.Sound) (h : p.visitAll r ids = .ok r') :
    ∃ es : List (Entry α), es.map Entry.constraint = ids ∧
      Replays (Entry.Fits p) (Run.enter p) r es r' := by
  induction ids generalizing r with
  | nil => exact ⟨[], rfl, Except.ok.inj h⟩
  | cons id rest ih =>
      rw [visitAll, List.foldlM_cons] at h
      cases hvisit : r.visit p id with
      | error stopped =>
          rw [hvisit] at h
          cases h
      | ok next =>
          have hchanges := r.visit_changes p id
          rw [hvisit] at h hchanges
          rcases Run.entry_of_visit hsound hvisit with ⟨e, rfl, hfits, rfl⟩
          rcases ih (hsound.changes hchanges) h with ⟨es, rfl, hrest⟩
          exact ⟨e :: es, rfl, hfits, hrest⟩

end Ordered

section Entries

variable {p : Pass α} {r r' : Run α} {es : List (Entry α)}

/-- The counts of some entries are balanced, and count each entry and each fold. -/
theorem Pass.counts_of_entries (p : Pass α) (es : List (Entry α)) :
    (es.map fun e => p.tally e.finding).sum.Balanced ∧
      (es.map fun e => p.tally e.finding).sum.visited = es.length ∧
      (es.map fun e => p.tally e.finding).sum.deactivated = es.countP Entry.isFolded := by
  induction es with
  | nil => exact ⟨.zero, rfl, rfl⟩
  | cons e rest ih =>
      rcases ih with ⟨hbalanced, hvisited, hdeactivated⟩
      rw [List.map_cons, List.sum_cons]
      refine ⟨(p.balanced_tally e.finding).add hbalanced, ?_, ?_⟩
      · change (p.tally e.finding).visited + _ = _
        rw [hvisited, List.length_cons, Nat.add_comm]
        cases e <;> rfl
      · change (p.tally e.finding).deactivated + _ = _
        rw [hdeactivated, List.countP_cons, Nat.add_comm]
        cases e <;> rfl

namespace Run

theorem counts_of_entries (h : Replays (Entry.Fits p) (enter p) r es r') :
    r'.report.counts = r.report.counts + (es.map fun e => p.tally e.finding).sum := by
  induction es generalizing r with
  | nil =>
      rcases (show r = r' from h) with rfl
      exact (add_zero _).symm
  | cons e rest ih => rw [ih h.2, counts_enter, List.map_cons, List.sum_cons, add_assoc]

/-- What is on after a run was on before and was not folded. -/
theorem isActive_of_entries (h : Replays (Entry.Fits p) (enter p) r es r') (id : ConstraintId) :
    r'.model.isActive id
      = (r.model.isActive id && !es.any fun e => e.isFolded && decide (e.constraint = id)) := by
  induction es generalizing r with
  | nil =>
      rcases (show r = r' from h) with rfl
      exact (Bool.and_true _).symm
  | cons e rest ih => rw [ih h.2, isActive_enter, List.any_cons, Bool.not_or, Bool.and_assoc]

/-- Without a fold the model stays as it is. -/
theorem model_of_entries (h : Replays (Entry.Fits p) (enter p) r es r')
    (hnone : ∀ e ∈ es, e.isFolded = false) : r'.model = r.model := by
  induction es generalizing r with
  | nil => exact congrArg Run.model (show r = r' from h).symm
  | cons e rest ih =>
      rcases List.forall_mem_cons.mp hnone with ⟨hfirst, hrest⟩
      exact (ih h.2 hrest).trans (model_enter_of_not_folded p r e hfirst)

/-- Of constraints that differ, those looked at are off afterwards if they were folded. -/
theorem isActive_constraint_of_entries (h : Replays (Entry.Fits p) (enter p) r es r')
    (hnodup : (es.map Entry.constraint).Nodup) {e : Entry α} (he : e ∈ es)
    (hon : r.model.isActive e.constraint = true) :
    r'.model.isActive e.constraint = !e.isFolded := by
  rw [isActive_of_entries h, hon, Bool.true_and, Bool.not_eq_eq_eq_not, Bool.not_not,
    Bool.eq_iff_iff, List.any_eq_true]
  constructor
  · rintro ⟨e', he', hfolded⟩
    rw [Bool.and_eq_true, decide_eq_true_eq] at hfolded
    rcases hfolded with ⟨hfolded, hconstraint⟩
    rwa [List.inj_on_of_nodup_map hnodup he' he hconstraint] at hfolded
  · intro hfolded
    exact ⟨e, he, by rw [hfolded, decide_eq_true rfl, Bool.and_true]⟩

/-- A run folds nothing if and only if it changes nothing, as a fold shows in the switch of
    its constraint. -/
theorem countP_isFolded_eq_zero_iff (h : Replays (Entry.Fits p) (enter p) r es r')
    (hnodup : (es.map Entry.constraint).Nodup)
    (hon : ∀ e ∈ es, r.model.isActive e.constraint = true) :
    es.countP Entry.isFolded = 0 ↔ r'.model = r.model := by
  rw [List.countP_eq_zero]
  constructor
  · exact fun hnone => model_of_entries h fun e he => Bool.eq_false_iff.mpr (hnone e he)
  · intro hsame e he hfolded
    have hoff := isActive_constraint_of_entries h hnodup he (hon e he)
    rw [hsame, hfolded, hon e he] at hoff
    cases hoff

end Run

/-- A walk after a run hands out what is still on of the walk before. -/
theorem Pass.candidates_of_entries (h : Replays (Entry.Fits p) (Run.enter p) r es r') :
    p.candidates r'.model = (p.candidates r.model).filter r'.model.isActive := by
  refine Model.activeConstraints_eq_filter (h.frame (·.model.blocks) (Run.blocks_enter p))
    (fun id hid => ?_) _
  rw [Run.isActive_of_entries h, Bool.and_eq_true] at hid
  exact hid.1

end Entries

/-- A report is an exact log of a run from one model to another. -/
structure Report.Exact (p : Pass α) (m m' : Model α) (report : Report α) : Prop where
  /-- The changes of bounds lead from the bounds before to the bounds afterwards. -/
  bounds : Replays BoundUpdate.Fits BoundUpdate.make m.boundTable report.boundUpdates
    m'.boundTable
  /-- The changes of values lead from the values before to the values afterwards. -/
  values : Replays ValueRepair.Fits ValueRepair.make m.valueTable report.valueRepairs
    m'.valueTable
  /-- A bound is only changed for a constraint that was switched off for it. -/
  switched : ∀ u ∈ report.boundUpdates,
    m.isActive u.constraint = true ∧ m'.isActive u.constraint = false
  targets : (report.boundUpdates.map BoundUpdate.target).Nodup
  visited : report.visited = (p.candidates m).length
  balanced : report.visited
    = report.deactivated + report.skippedNonlinear + report.skippedNonSingle
  degenerate : report.degenerate ≤ report.deactivated
  remaining : (p.candidates m').length = report.visited - report.deactivated
  isNoop : report.isNoop = true ↔ m' = m

namespace Pass

variable [OrderedScalar α] {p : Pass α} {m : Model α}

/-- The report of a run that succeeds is an exact log of it, whatever its reduction
    answers. -/
theorem report_exact (p : Pass α) (hm : m.Reachable) (hfits : m.Fits) {report : Report α}
    (h : (p.run m).result = .ok report) : report.Exact p m (p.run m).model := by
  have hsound := hm.sound
  have hwalk : (p.candidates m).Nodup := Model.nodup_activeConstraints hm hfits _
  rcases visitAll_of_run h with ⟨r, hvisit, hmodel, rfl⟩
  rw [hmodel]
  rcases entries_of_visitAll (r := { model := m }) hsound hvisit with ⟨es, hids, hes⟩
  rw [← hids] at hwalk
  -- Each constraint was on when it was looked at, and is off afterwards if it was folded.
  have hon (e : Entry α) (he : e ∈ es) : m.isActive e.constraint = true :=
    Model.isActive_of_mem_activeConstraints (hids ▸ List.mem_map_of_mem he)
  have hswitch (e : Entry α) (he : e ∈ es) : r.model.isActive e.constraint = !e.isFolded :=
    Run.isActive_constraint_of_entries hes hwalk he (hon e he)
  have htargets := hes.forall_mem fun _ _ hfits => hfits.targets
  have hconstraint := hes.forall_mem fun _ _ hfits => hfits.constraint_eq
  have hbounds := hes.collect (·.report.boundUpdates) Entry.updates (Run.boundUpdates_enter p)
  have hvalues := hes.collect (·.report.valueRepairs) Entry.repairs (Run.valueRepairs_enter p)
  rw [List.nil_append] at hbounds hvalues
  have hcounts := Run.counts_of_entries hes
  rw [show Report.counts { : Report α } = 0 from rfl, zero_add] at hcounts
  rcases p.counts_of_entries es with ⟨hbalanced, hvisited, hdeactivated⟩
  rw [← hcounts] at hbalanced hvisited hdeactivated
  refine ⟨?_, ?_, ?_, ?_, ?_, hbalanced.visited, hbalanced.degenerate, ?_, ?_⟩
  · rw [hbounds]
    exact hes.flatMap (fun r => r.model.boundTable) Entry.updates fun _ _ hfits => hfits.updates
  · rw [hvalues]
    exact hes.flatMap (fun r => r.model.valueTable) Entry.repairs fun _ _ hfits => hfits.repairs
  · intro u hu
    rw [hbounds] at hu
    rcases List.mem_flatMap.mp hu with ⟨e, he, hu⟩
    rw [hconstraint e he u hu, hswitch e he, Entry.isFolded_of_mem_updates hu]
    exact ⟨hon e he, rfl⟩
  · rw [hbounds]
    exact Entry.nodup_targets htargets hconstraint hwalk
  · rw [← hids, List.length_map]
    exact hvisited
  · rw [candidates_of_entries hes, ← hids, Entry.length_filter hswitch]
    exact congrArg₂ (· - ·) hvisited.symm hdeactivated.symm
  · rw [Report.isNoop, beq_iff_eq, show r.report.deactivated = _ from hdeactivated]
    exact Run.countP_isFolded_eq_zero_iff hes hwalk hon

/-- Three constraints bound the same variable, two of them from above and each more than the
    one before. Its value is moved twice. A product of two unknowns is left alone, and so is
    the sum of them. -/
theorem report_exact_repaired :
    ∃ (m : Model Float) (report : Report Float),
      m = (Model.empty : Model Float).after [.addVariable { value := some 10 }, .addVariable {},
        .addConstraintTo rootBlock (.term ⟨0⟩ 2) ⟨none, some 12⟩,
        .addConstraintTo rootBlock (.product ⟨0⟩ ⟨1⟩ 1) ⟨none, some 1⟩,
        .addConstraintTo rootBlock (.affine [(⟨0⟩, 1), (⟨1⟩, 1)] 0) ⟨some 0, none⟩,
        .addConstraintTo rootBlock (.affine [(⟨0⟩, 1)] 1) ⟨some 1, some 5⟩,
        .addConstraintTo rootBlock (.term ⟨0⟩ (-1)) ⟨none, some (-2)⟩] ∧
      m.Fits ∧ (standard.run m).result = .ok report ∧
      report.boundUpdates.map (fun u => (u.constraint, u.side)) =
        [(⟨0⟩, .upper), (⟨3⟩, .upper), (⟨3⟩, .lower), (⟨4⟩, .lower)] ∧
      report.valueRepairs.length = 2 ∧ report.Exact standard m (standard.run m).model := by
  set m := (Model.empty : Model Float).after [.addVariable { value := some 10 }, .addVariable {},
    .addConstraintTo rootBlock (.term ⟨0⟩ 2) ⟨none, some 12⟩,
    .addConstraintTo rootBlock (.product ⟨0⟩ ⟨1⟩ 1) ⟨none, some 1⟩,
    .addConstraintTo rootBlock (.affine [(⟨0⟩, 1), (⟨1⟩, 1)] 0) ⟨some 0, none⟩,
    .addConstraintTo rootBlock (.affine [(⟨0⟩, 1)] 1) ⟨some 1, some 5⟩,
    .addConstraintTo rootBlock (.term ⟨0⟩ (-1)) ⟨none, some (-2)⟩] with hm
  have hfits : m.Fits := ⟨by decide +kernel, by decide +kernel, by decide +kernel⟩
  rcases exists_ok_of_isOk (show (standard.run m).result.isOk = true by decide +kernel) with
    ⟨report, h⟩
  have hchanges : (standard.run m).result.toOption.map (fun r =>
      (r.boundUpdates.map fun u => (u.constraint, u.side), r.valueRepairs.length))
        = some ([(⟨0⟩, .upper), (⟨3⟩, .upper), (⟨3⟩, .lower), (⟨4⟩, .lower)], 2) := by
    decide +kernel
  rw [h] at hchanges
  rcases Prod.mk.inj (Option.some.inj hchanges) with ⟨hbounds, hvalues⟩
  exact ⟨m, report, rfl, hfits, h, hbounds, hvalues, report_exact standard ⟨_, hm.symm⟩ hfits h⟩

end Pass

end Presolve
