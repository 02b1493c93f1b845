import Presolve.Proofs.Fold.Log

/-!
# The Events of a Run

That an observer of a run and a reader of its report are told the same story. The events of
a run that succeeds come in episodes, one for each constraint of the walk and in its order.
An episode is a single remark that the constraint was left alone, or it tells of the bounds
that were tightened, of the constraint being switched off and of the value that was moved.
The last event sums up the run, and there is no other one of that kind.

A run comes to entries, and an entry has all that its episode tells. So whatever can be read
off an entry for the report and off its episode for the observer is compared once for each
kind of entry, and agrees for a run because both are collected in the same order. The names
that events give are those of the model before the run, as a run gives none.

A run that fails is stopped within an episode, and does not sum up anything.

## Main definitions

* `Event.tightened?`, `Event.moved?`, `Event.tally`: What an observer learns from an event.
* `Episode`: What is told of one constraint.
* `Entry.events`: The events of an entry.
* `Report.Told`: A report and some events tell the same story.
* `Run.Quiet`: A run has not been summed up.

## Theorems

* `Entry.episode`: The events of an entry are an episode.
* `Run.events_of_entries`: The events of a run are those of its entries.
* `Report.told_of_entries`: A run that comes to entries tells what its report says.
* `Run.Quiet.of_visit_error`: A visit that fails sums up nothing.
* `Pass.run_told`: The events of a run and its report tell the same story.
-/

namespace Presolve

variable {α : Type}

namespace Event

/-- The variable, the side, and the two numbers of a bound that was tightened. -/
def tightened? : Event α → Option (VariableId × Side × Option α × α)
  | boundTightened var _ side previous current => some (var, side, previous, current)
  | _ => none

/-- The variable and the two numbers of a value that was moved. -/
def moved? : Event α → Option (VariableId × α × α)
  | valueMoved var _ previous current => some (var, previous, current)
  | _ => none

/-- What an event adds to the counts of an observer. -/
def tally : Event α → Counts
  | nonlinearSkipped _ _ => { visited := 1, skippedNonlinear := 1 }
  | nonSingleSkipped _ _ => { visited := 1, skippedNonSingle := 1 }
  | constraintDeactivated _ _ _ _ _ degenerate =>
    { visited := 1, deactivated := 1, degenerate := if degenerate then 1 else 0 }
  | _ => 0

/-- The event sums up a run. -/
def isSummary : Event α → Bool
  | runFinished .. => true
  | _ => false

end Event

/-- The names that a model gives. -/
def Model.names (m : Model α) : NameTable .vars × NameTable .constraints :=
  (m.varNames, m.constraintNames)

/-- The event that tells of a change of a bound. -/
def BoundUpdate.event (m : Model α) (u : BoundUpdate α) : Event α :=
  .boundTightened u.var (m.varNames.name? u.var) u.side u.previous u.current

/-- The event that tells of a change of a value. -/
def ValueRepair.event (m : Model α) (w : ValueRepair α) : Event α :=
  .valueMoved w.var (m.varNames.name? w.var) w.previous w.current

/-- The event that sums up a report. -/
def Report.summary (report : Report α) : Event α :=
  .runFinished report.visited report.deactivated report.degenerate report.boundUpdates.length
    report.valueRepairs.length

theorem Run.names_withUpdates (r : Run α) (us : List (BoundUpdate α)) :
    (r.withUpdates us).model.names = r.model.names :=
  Model.foldl_frame Model.names Model.applyUpdate (fun _ _ => rfl) r.model us

/-- No event of the run sums it up. -/
def Run.Quiet (r : Run α) : Prop := ∀ event ∈ r.events, event.isSummary = false

theorem Run.Quiet.withUpdates {r : Run α} (hr : r.Quiet) (us : List (BoundUpdate α)) :
    (r.withUpdates us).Quiet :=
  List.forall_mem_append.mpr ⟨hr, List.forall_mem_map.mpr fun _ _ => rfl⟩

variable [Scalar α]

theorem Run.Quiet.dropSingle {p : Pass α} {r : Run α} (hr : r.Quiet) (s : Single α) :
    (r.dropSingle p s).Quiet :=
  List.forall_mem_append.mpr ⟨hr, List.forall_mem_singleton.mpr rfl⟩

/-- What is told of one constraint of a model. -/
inductive Episode (p : Pass α) (m : Model α) (id : ConstraintId) : List (Event α) → Prop
  /-- It is left alone because of a product. -/
  | nonlinear (degree : Nat) : Episode p m id [.nonlinearSkipped id degree]
  /-- It is left alone because it does not speak of exactly one variable. -/
  | nonSingle (vars : Nat) : Episode p m id [.nonSingleSkipped id vars]
  /-- At most two bounds of its variable are tightened, it is switched off, and the value of
      its variable is moved at most once. -/
  | folded (var : VariableId) (k : α) (us : List (BoundUpdate α)) (ws : List (ValueRepair α))
      (us_length : us.length ≤ 2) (of_us : ∀ u ∈ us, u.constraint = id ∧ u.var = var)
      (ws_length : ws.length ≤ 1) (of_ws : ∀ w ∈ ws, w.var = var) :
      Episode p m id (us.map (·.event m) ++ .constraintDeactivated id
        (m.constraintNames.name? id) var (m.varNames.name? var) k (p.isDegenerate k)
          :: ws.map (·.event m))

/-- The report of a run and the events on the way to it tell the same story. -/
structure Report.Told (p : Pass α) (m : Model α) (report : Report α) (events : List (Event α)) :
    Prop where
  /-- There is an episode for each constraint in the order of the walk, and a summary. -/
  episodes : ∃ parts, List.Forall₂ (Episode p m) (p.candidates m) parts ∧
    events = parts.flatten ++ [report.summary]
  tightened : events.filterMap Event.tightened?
    = report.boundUpdates.map fun u => (u.var, u.side, u.previous, u.current)
  moved : events.filterMap Event.moved?
    = report.valueRepairs.map fun w => (w.var, w.previous, w.current)
  counts : (events.map Event.tally).sum = report.counts
  /-- No other event sums up the run. -/
  summary : events.filter Event.isSummary = [report.summary]

namespace Entry

/-- The events of an entry, with the names that a model gives. -/
def events (p : Pass α) (m : Model α) : Entry α → List (Event α)
  | nonlinear id degree => [.nonlinearSkipped id degree]
  | nonSingle id vars => [.nonSingleSkipped id vars]
  | folded s updates repairs =>
    updates.map (·.event m) ++ .constraintDeactivated s.constraint
      (m.constraintNames.name? s.constraint) s.var (m.varNames.name? s.var) s.coefficient
      (p.isDegenerate s.coefficient) :: repairs.map (·.event m)

variable {p : Pass α} {m m' : Model α} {e : Entry α}

/-- Events depend on a model by its names only. -/
theorem events_congr (h : m'.names = m.names) : e.events p m' = e.events p m := by
  rcases Prod.mk.inj h with ⟨hvars, hconstraints⟩
  cases e with
  | nonlinear id degree => rfl
  | nonSingle id vars => rfl
  | folded s us ws =>
      simp only [events, BoundUpdate.event, ValueRepair.event, hvars, hconstraints]

/-- The events of an entry that belongs to a run are an episode. -/
theorem episode {r : Run α} (h : e.Fits p r) : Episode p m e.constraint (e.events p m) := by
  cases e with
  | nonlinear id degree => exact .nonlinear degree
  | nonSingle id vars => exact .nonSingle vars
  | folded s us ws =>
      rcases h.isLocal with ⟨hlength, hvar, hmoved⟩
      have hone : ws.length ≤ 1 := by simpa using hmoved.length_le
      refine .folded s.var s.coefficient us ws hlength ?_ hone ?_
      · exact fun u hu => ⟨h.constraint_eq u hu, hvar u hu⟩
      · exact fun w hw => List.mem_singleton.mp (hmoved.subset (List.mem_map_of_mem hw))

theorem tightened_events (e : Entry α) : (e.events p m).filterMap Event.tightened?
    = e.updates.map fun u => (u.var, u.side, u.previous, u.current) := by
  cases e with
  | nonlinear id degree => rfl
  | nonSingle id vars => rfl
  | folded s us ws =>
      simp [events, Entry.updates, List.filterMap_cons, BoundUpdate.event, ValueRepair.event,
        Event.tightened?, Function.comp_def]

theorem moved_events (e : Entry α) : (e.events p m).filterMap Event.moved?
    = e.repairs.map fun w => (w.var, w.previous, w.current) := by
  cases e with
  | nonlinear id degree => rfl
  | nonSingle id vars => rfl
  | folded s us ws =>
      simp [events, Entry.repairs, List.filterMap_cons, BoundUpdate.event, ValueRepair.event,
        Event.moved?, Function.comp_def]

theorem tally_events (e : Entry α) :
    ((e.events p m).map Event.tally).sum = p.tally e.finding := by
  cases e with
  | nonlinear id degree => rfl
  | nonSingle id vars => rfl
  | folded s us ws =>
      simp [events, finding, Pass.tally, BoundUpdate.event, ValueRepair.event, Event.tally,
        Function.comp_def]

theorem summary_events (e : Entry α) : (e.events p m).filter Event.isSummary = [] := by
  cases e with
  | nonlinear id degree => rfl
  | nonSingle id vars => rfl
  | folded s us ws =>
      simp [events, BoundUpdate.event, ValueRepair.event, Event.isSummary]

end Entry

namespace Run

variable {p : Pass α} {r r' : Run α} {es : List (Entry α)}

theorem events_countSingle (p : Pass α) (r : Run α) (s : Single α) :
    (r.countSingle p s).events = r.events := by
  rw [countSingle]
  split <;> rfl

theorem names_enter (p : Pass α) (r : Run α) (e : Entry α) :
    (r.enter p e).model.names = r.model.names := by
  cases e with
  | nonlinear id degree => rfl
  | nonSingle id vars => rfl
  | folded s us ws =>
      change (ws.foldl Model.applyRepair _).names = _
      rw [Model.foldl_frame Model.names Model.applyRepair fun _ _ => rfl]
      change ((r.countVisit.countSingle p s).withUpdates us).model.names = _
      rw [names_withUpdates, model_countSingle]
      rfl

theorem events_enter (p : Pass α) (r : Run α) (e : Entry α) :
    (r.enter p e).events = r.events ++ e.events p r.model := by
  cases e with
  | nonlinear id degree => rfl
  | nonSingle id vars => rfl
  | folded s us ws =>
      set bounded := (r.countVisit.countSingle p s).withUpdates us
      -- What comes after the bounds still gives the names that were there before.
      have hnames : bounded.model.names = r.model.names := by
        rw [names_withUpdates, model_countSingle]
        rfl
      have hbounded : bounded.events = r.events ++ us.map (·.event r.model) := by
        change (r.countVisit.countSingle p s).events
          ++ us.map (·.event (r.countVisit.countSingle p s).model) = _
        rw [events_countSingle, model_countSingle]
        rfl
      calc (r.enter p (.folded s us ws)).events
          = bounded.events ++ (Entry.folded s [] ws).events p bounded.model :=
            List.append_assoc _ _ _
        _ = r.events ++ (Entry.folded s us ws).events p r.model := by
            rw [hbounded, Entry.events_congr hnames, List.append_assoc]
            rfl

/-- The events of a run are those that it had and those of its entries. -/
theorem events_of_entries (h : Replays (Entry.Fits p) (enter p) r es r') :
    r'.events = r.events ++ es.flatMap (Entry.events p r.model) := by
  induction es generalizing r with
  | nil =>
      rcases (show r = r' from h) with rfl
      exact (List.append_nil _).symm
  | cons e rest ih =>
      have hrest : rest.flatMap (Entry.events p (r.enter p e).model)
          = rest.flatMap (Entry.events p r.model) :=
        List.flatMap_congr fun e' _ => Entry.events_congr (names_enter p r e)
      rw [ih h.2, events_enter, hrest, List.flatMap_cons, List.append_assoc]

end Run

/-- A run that succeeds tells what its entries tell, and sums up. -/
theorem Report.told_of_entries {p : Pass α} {m : Model α} {r : Run α} {es : List (Entry α)}
    (hids : es.map Entry.constraint = p.candidates m)
    (h : Replays (Entry.Fits p) (Run.enter p) { model := m } es r) :
    r.report.Told p m (r.events ++ [r.summary]) := by
  have hevents := Run.events_of_entries h
  have hbounds := h.collect (·.report.boundUpdates) Entry.updates (Run.boundUpdates_enter p)
  have hvalues := h.collect (·.report.valueRepairs) Entry.repairs (Run.valueRepairs_enter p)
  have hcounts := Run.counts_of_entries h
  rw [List.nil_append] at hevents hbounds hvalues
  rw [show Report.counts { : Report α } = 0 from rfl, zero_add] at hcounts
  rw [hevents]
  -- What is read off the events is read off one episode after the other, and the summary adds
  -- nothing to it.
  have htightened : (es.flatMap (Entry.events p m)).filterMap Event.tightened?
      = r.report.boundUpdates.map fun u => (u.var, u.side, u.previous, u.current) := by
    rw [hbounds, List.filterMap_flatMap, List.map_flatMap]
    exact List.flatMap_congr fun e _ => e.tightened_events
  have hmoved : (es.flatMap (Entry.events p m)).filterMap Event.moved?
      = r.report.valueRepairs.map fun w => (w.var, w.previous, w.current) := by
    rw [hvalues, List.filterMap_flatMap, List.map_flatMap]
    exact List.flatMap_congr fun e _ => e.moved_events
  have htally : ((es.flatMap (Entry.events p m)).map Event.tally).sum = r.report.counts := by
    rw [hcounts, List.map_flatMap, List.flatMap_def, List.sum_flatten, List.map_map]
    exact congrArg List.sum (List.map_congr_left fun e _ => e.tally_events)
  have hsummary : (es.flatMap (Entry.events p m)).filter Event.isSummary = [] := by
    rw [List.filter_flatMap]
    exact List.flatMap_eq_nil_iff.mpr fun e _ => e.summary_events
  refine ⟨⟨es.map (Entry.events p m), ?_, ?_⟩, ?_, ?_, ?_, ?_⟩
  · rw [← hids, List.forall₂_map_left_iff, List.forall₂_map_right_iff, List.forall₂_same]
    exact h.forall_mem fun _ _ hfits => Entry.episode hfits
  · rw [List.flatMap_def]
    rfl
  · rw [List.filterMap_append, htightened]
    exact List.append_nil _
  · rw [List.filterMap_append, hmoved]
    exact List.append_nil _
  · rw [List.map_append, List.sum_append, htally]
    exact add_zero _
  · rw [List.filter_append, hsummary]
    rfl

namespace Run

variable {p : Pass α} {r : Run α} {id : ConstraintId} {stopped : Stopped α}

theorem Quiet.entries {r' : Run α} {es : List (Entry α)} (hr : r.Quiet)
    (h : Replays (Entry.Fits p) (enter p) r es r') : r'.Quiet := by
  rw [Quiet, events_of_entries h]
  refine List.forall_mem_append.mpr ⟨hr, fun event hevent => ?_⟩
  rcases List.mem_flatMap.mp hevent with ⟨e, -, he⟩
  exact Bool.eq_false_iff.mpr (List.filter_eq_nil_iff.mp e.summary_events event he)

variable [OrderedScalar α]

/-- A visit that fails tells of changes before it does, and sums up nothing. -/
theorem Quiet.of_visit_error (hr : r.Quiet) (hsound : r.model.Sound)
    (h : r.visit p id = .error stopped) : stopped.run.Quiet := by
  rw [visit_eq] at h
  split at h
  · cases h
    exact hr
  · cases h
  · cases h
  · rename_i s hfinding
    rcases foldSingle_foldsTo (r := r.countVisit) hsound p s with ⟨us, -, -, -, hfolds⟩
    have hbounded : ((r.countVisit.countSingle p s).withUpdates us).Quiet := by
      refine Quiet.withUpdates ?_ us
      rw [Quiet, events_countSingle]
      exact hr
    rw [h] at hfolds
    cases hfolds with
    | kept reason => exact hbounded
    | dropped reason => exact hbounded.dropSingle s

end Run

namespace Pass

variable [OrderedScalar α] {p : Pass α} {m : Model α}

/-- The events of a run that succeeds and its report tell the same story, whatever the
    reduction answers. A run that fails is not summed up. -/
theorem run_told (p : Pass α) (hm : m.Reachable) :
    (∀ report, (p.run m).result = .ok report → report.Told p m (p.run m).events) ∧
    ∀ reason, (p.run m).result = .error reason →
      ∀ event ∈ (p.run m).events, event.isSummary = false := by
  have hstart : ({ model := m } : Run α).Quiet := List.forall_mem_nil _
  rw [run]
  cases hall : p.visitAll { model := m } (p.candidates m) with
  | ok r =>
      rcases entries_of_visitAll (r := { model := m }) hm.sound hall with ⟨es, hids, hes⟩
      refine ⟨?_, fun reason h => ?_⟩
      · rintro report h
        cases h
        exact Report.told_of_entries hids hes
      · cases h
  | error stopped =>
      rcases visitAll_eq_error hall with ⟨done, id, rest, before, -, hdone, hvisit⟩
      rcases entries_of_visitAll (r := { model := m }) hm.sound hdone with ⟨es, -, hes⟩
      refine ⟨fun report h => ?_, fun reason h => ?_⟩
      · cases h
      · have hchanges := p.visitAll_changes { model := m } done
        rw [hdone] at hchanges
        exact (hstart.entries hes).of_visit_error (hm.sound.changes hchanges) hvisit

/-- A product and a sum are left alone. In between a variable with a name gets two bounds, which
    move its value, and a term that is close to zero only switches its constraint off. If there
    is one more constraint, with a bound that overflows, then the run tells all of this and fails
    without summing it up. -/
theorem run_told_overflow :
    ∃ (m m' : Model Float) (report : Report Float),
      m = (Model.empty : Model Float).after [.addVariable { value := some 10 }, .addVariable {},
        .nameVariable ⟨0⟩ "x", .addConstraintTo rootBlock (.product ⟨0⟩ ⟨1⟩ 1) ⟨none, some 1⟩,
        .addConstraintTo rootBlock (.affine [(⟨0⟩, 1)] 1) ⟨some 1, some 5⟩,
        .addConstraintTo rootBlock (.affine [(⟨0⟩, 1), (⟨1⟩, 1)] 0) ⟨some 0, none⟩,
        .addConstraintTo rootBlock (.term ⟨1⟩ 1e-9) ⟨none, some 1⟩] ∧
      m' = m.after
        [.addConstraintTo rootBlock (.term ⟨1⟩ 1e-7) ⟨some 1e304, some 1e305⟩] ∧
      (standard.run m).result = .ok report ∧ report.Told standard m (standard.run m).events ∧
      (standard.run m).events.map Event.level
        = [.trace, .debug, .debug, .debug, .debug, .trace, .debug, .info] ∧
      (standard.run m').result.isOk = false ∧ (standard.run m').events.length = 7 ∧
      ∀ event ∈ (standard.run m').events, event.isSummary = false := by
  set m := (Model.empty : Model Float).after [.addVariable { value := some 10 }, .addVariable {},
    .nameVariable ⟨0⟩ "x", .addConstraintTo rootBlock (.product ⟨0⟩ ⟨1⟩ 1) ⟨none, some 1⟩,
    .addConstraintTo rootBlock (.affine [(⟨0⟩, 1)] 1) ⟨some 1, some 5⟩,
    .addConstraintTo rootBlock (.affine [(⟨0⟩, 1), (⟨1⟩, 1)] 0) ⟨some 0, none⟩,
    .addConstraintTo rootBlock (.term ⟨1⟩ 1e-9) ⟨none, some 1⟩] with hm
  set m' := m.after
    [.addConstraintTo rootBlock (.term ⟨1⟩ 1e-7) ⟨some 1e304, some 1e305⟩] with hm'
  have hreached : m'.Reachable := by
    rw [hm', hm, Model.after, Model.after, ← List.foldl_append]
    exact ⟨_, rfl⟩
  rcases exists_ok_of_isOk (show (standard.run m).result.isOk = true by decide +kernel) with
    ⟨report, h⟩
  have hfails : (standard.run m').result.isOk = false := by decide +kernel
  have hquiet : ∀ event ∈ (standard.run m').events, event.isSummary = false := by
    cases h' : (standard.run m').result with
    | ok report' =>
        rw [h'] at hfails
        cases hfails
    | error reason => exact (run_told standard hreached).2 reason h'
  exact ⟨m, m', report, rfl, rfl, h, (run_told standard ⟨_, hm.symm⟩).1 report h,
    by decide +kernel, hfails, by decide +kernel, hquiet⟩

end Pass

end Presolve
