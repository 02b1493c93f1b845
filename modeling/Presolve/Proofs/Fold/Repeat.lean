import Presolve.Proofs.Fold.Failure
import Presolve.Proofs.Fold.Stages

/-!
# Repeated Runs

Running a pass a second time on the model that the first run has left. Whether or
not it came to its end, the first run has folded the singles among the candidates
before the first one that is refused, and those are off. What the second run
meets before it comes to its end, or to the same refusal, are the constraints that
the first one left alone. They are found to be what they were found to be before,
so the second run leaves them alone as well and changes nothing.

It makes no difference that bounds and values have changed. A finding depends on
the numbers that variables are fixed at, which no run moves, and a refusal depends
on the finding alone.

## Main definitions

* `Counts.skipped`: The part of some counts that is about constraints left alone.

## Theorems

* `Pass.model_run`: The model after a run, whether or not it succeeds.
* `Pass.settled_run`: What a second run meets before a refusal.
* `Pass.singles_settled_run`: None of it is a single.
* `Pass.model_run_run`: A second run changes nothing.
* `Pass.error_run_run_iff`: A second run fails as the first one did.
* `Pass.run_run_of_ok`: A run that succeeds, repeated.
* `Pass.run_run_of_error`: A run that fails, repeated.
-/

namespace Presolve

open Scalar OrderedScalar

section Lists

variable {β : Type} {keep : β → Bool} {l : List β}

/-- A list can be cut off before or after leaving out what it is not cut off at. -/
theorem takeWhile_filter_of_pos {q : β → Bool} (h : ∀ a ∈ l, keep a = false → q a = true) :
    (l.filter keep).takeWhile q = (l.takeWhile q).filter keep := by
  induction l with
  | nil => rfl
  | cons a rest ih =>
      have hrest := ih fun b hb => h b (List.mem_cons_of_mem _ hb)
      cases hq : q a with
      | true =>
          rw [List.takeWhile_cons_of_pos hq]
          cases hkeep : keep a with
          | true =>
              rw [List.filter_cons_of_pos hkeep, List.filter_cons_of_pos hkeep,
                List.takeWhile_cons_of_pos hq, hrest]
          | false =>
              rw [List.filter_cons_of_neg (Bool.eq_false_iff.mp hkeep),
                List.filter_cons_of_neg (Bool.eq_false_iff.mp hkeep), hrest]
      | false =>
          -- The list is cut off here, so this element is kept.
          have hkeep : keep a = true := by
            cases hkeep : keep a with
            | true => rfl
            | false => rw [h a List.mem_cons_self hkeep] at hq; cases hq
          rw [List.filter_cons_of_pos hkeep, List.takeWhile_cons_of_neg (Bool.eq_false_iff.mp hq),
            List.takeWhile_cons_of_neg (Bool.eq_false_iff.mp hq), List.filter_nil]

end Lists

namespace Counts

/-- The part of some counts that is about constraints left alone. -/
def skipped (c : Counts) : Counts where
  visited := c.skippedNonlinear + c.skippedNonSingle
  skippedNonlinear := c.skippedNonlinear
  skippedNonSingle := c.skippedNonSingle

theorem skipped_add (a b : Counts) : (a + b).skipped = a.skipped + b.skipped :=
  Counts.ext (Nat.add_add_add_comm ..) rfl rfl rfl rfl

end Counts

variable {α : Type}

/-- A report is its counts and its changes. -/
theorem Report.eq_of_counts {a b : Report α} (hcounts : a.counts = b.counts)
    (hbounds : a.boundUpdates = b.boundUpdates) (hvalues : a.valueRepairs = b.valueRepairs) :
    a = b := by
  cases a
  cases b
  simp only [Report.counts, Counts.mk.injEq] at hcounts
  simp only [Report.mk.injEq]
  exact ⟨hcounts.1, hcounts.2.1, hcounts.2.2.1, hcounts.2.2.2.1, hcounts.2.2.2.2, hbounds,
    hvalues⟩

variable [Scalar α]

namespace Pass

variable {p : Pass α} {m : Model α}

theorem skipped_tally (p : Pass α) (f : Finding α) :
    (p.tally f).skipped = if f.single?.isNone then p.tally f else 0 := by
  cases f <;> rfl

/-- The constraints that are no singles account for the part of the counts that is
    about constraints left alone. -/
theorem sum_tallyAt_filter {ids : List ConstraintId} {keep : ConstraintId → Bool}
    (hall : ∀ id ∈ ids, p.Accepts m id) (hkeep : ∀ id ∈ ids, keep id = (p.single? m id).isNone) :
    ((ids.filter keep).map (p.tallyAt m)).sum = ((ids.map (p.tallyAt m)).sum).skipped := by
  induction ids with
  | nil => rfl
  | cons id rest ih =>
      have hrest := ih (fun id' hid' => hall id' (List.mem_cons_of_mem _ hid'))
        fun id' hid' => hkeep id' (List.mem_cons_of_mem _ hid')
      have hfirst := hkeep id List.mem_cons_self
      rcases hall id List.mem_cons_self with ⟨f, hf, -⟩
      have htally : p.tallyAt m id = p.tally f := by rw [tallyAt, hf]; rfl
      rw [single?, hf] at hfirst
      rw [List.map_cons, List.sum_cons, Counts.skipped_add, htally, skipped_tally, ← hrest]
      -- The first constraint is kept if it is no single, and otherwise counts for nothing.
      cases hsingle : f.single?.isNone with
      | true =>
          rw [List.filter_cons_of_pos (hfirst.trans hsingle), List.map_cons, List.sum_cons, htally,
            if_pos rfl]
      | false =>
          rw [List.filter_cons_of_neg (Bool.eq_false_iff.mp (hfirst.trans hsingle)),
            if_neg Bool.false_ne_true, zero_add]

/-- Visits that meet no single record no change. -/
theorem changes_of_visitAll {ids : List ConstraintId} {r r' : Run α}
    (hnone : p.singles r.model ids = []) (h : p.visitAll r ids = .ok r') :
    r'.report.boundUpdates = r.report.boundUpdates ∧
      r'.report.valueRepairs = r.report.valueRepairs := by
  induction ids generalizing r with
  | nil =>
      cases h
      exact ⟨rfl, rfl⟩
  | cons id rest ih =>
      rw [singles_cons, List.append_eq_nil_iff, Option.toList_eq_nil_iff] at hnone
      rw [visitAll, List.foldlM_cons, Run.visit_eq] at h
      cases hfinding : p.finding r.model id with
      | error e =>
          rw [hfinding] at h
          cases h
      | ok f =>
          rw [hfinding] at h
          cases f with
          | nonlinear degree => exact ih (r := r.countVisit.skipNonlinear id degree) hnone.2 h
          | nonSingle vars => exact ih (r := r.countVisit.skipNonSingle id vars) hnone.2 h
          | single s =>
              rw [single?_eq_some.mpr hfinding] at hnone
              cases hnone.1

end Pass

variable [MonotoneScalar α]

namespace Pass

variable {p : Pass α} {m : Model α}

theorem settled_of_run (hp : p.reduce = Poly.reduce) (hm : m.Sound) {report : Report α}
    (h : (p.run m).result = .ok report) : p.settled m = p.candidates m := by
  refine List.takeWhile_eq_self_iff.mpr fun id hid => ?_
  exact Option.isNone_iff_eq_none.mpr (refusal?_eq_none.mpr (accepts_of_run hp hm h id hid))

/-- A run folds the singles among the candidates before the first one that is
    refused, whether or not there is such a candidate. -/
theorem model_run (hp : p.reduce = Poly.reduce) (hm : m.Sound) :
    (p.run m).model = p.foldAll m (p.singles m (p.settled m)) := by
  cases h : (p.run m).result with
  | ok report =>
      rw [settled_of_run hp hm h]
      exact model_of_run hp hm h
  | error e =>
      rcases visitAll_of_run_error h with ⟨stopped, hall, hleft, -⟩
      rcases visitAll_eq_error hall with ⟨done, id, rest, before, hids, hdone, hvisit⟩
      rcases sound_rereads_of_visitAll hp hm hdone with ⟨hsound, hreread⟩
      have hrefused := Run.refusal_of_visit_error hp hsound hvisit
      rw [refusal?_rereads hreread] at hrefused
      have hsettled : p.settled m = done := by
        rw [settled, hids, List.takeWhile_append_of_pos fun id' hid' =>
          Option.isNone_iff_eq_none.mpr (refusal?_eq_none.mpr
            (accepts_of_visitAll hp hm hdone id' hid'))]
        rw [List.takeWhile_cons_of_neg (by rw [hrefused]; exact Bool.false_ne_true),
          List.append_nil]
      rw [hleft, Run.model_of_visit_error hp hsound hvisit, (model_of_visitAll hp hm hdone).1,
        hsettled]

theorem sound_rereads_run (hp : p.reduce = Poly.reduce) (hm : m.Sound) :
    (p.run m).model.Sound ∧ (p.run m).model.Rereads m := by
  rw [model_run hp hm]
  exact sound_rereads_foldAll_singles hp hm fun _ => accepts_of_mem_settled

/-- A run switches the singles off among the candidates before a refusal. -/
theorem isActive_run (hp : p.reduce = Poly.reduce) (hm : m.Sound) {id : ConstraintId}
    (hid : id ∈ p.candidates m) :
    (p.run m).model.isActive id = false
      ↔ id ∈ p.settled m ∧ ∃ s, p.finding m id = .ok (.single s) := by
  rw [model_run hp hm]
  exact isActive_foldAll_singles hid

/-- What a run that succeeds leaves on among its candidates is what is no single. -/
theorem isActive_run_of_ok (hp : p.reduce = Poly.reduce) (hm : m.Sound) {report : Report α}
    (h : (p.run m).result = .ok report) {id : ConstraintId} (hid : id ∈ p.candidates m) :
    (p.run m).model.isActive id = (p.single? m id).isNone := by
  rw [Bool.eq_iff_iff, ← Bool.not_eq_false, isActive_run hp hm hid, settled_of_run hp hm h,
    Option.isNone_iff_eq_none, Option.eq_none_iff_forall_ne_some, not_and]
  simp only [← single?_eq_some, not_exists, hid, true_implies, ne_eq]

theorem candidates_run (hp : p.reduce = Poly.reduce) (hm : m.Sound) :
    p.candidates (p.run m).model = (p.candidates m).filter (p.run m).model.isActive := by
  rw [model_run hp hm, candidates_foldAll]

/-- A second run meets the same constraints before a refusal, without those that
    are off. -/
theorem settled_run (hp : p.reduce = Poly.reduce) (hm : m.Sound) :
    p.settled (p.run m).model = (p.settled m).filter (p.run m).model.isActive := by
  rw [settled, candidates_run hp hm, refusal?_rereads (sound_rereads_run hp hm).2]
  refine takeWhile_filter_of_pos fun id hid hoff => ?_
  have hsettled := ((isActive_run hp hm hid).mp hoff).1
  exact Option.isNone_iff_eq_none.mpr (refusal?_eq_none.mpr (accepts_of_mem_settled hsettled))

theorem singles_settled_run (hp : p.reduce = Poly.reduce) (hm : m.Sound) :
    p.singles (p.run m).model (p.settled (p.run m).model) = [] := by
  rw [settled_run hp hm, singles_rereads (sound_rereads_run hp hm).2]
  refine List.filterMap_eq_nil_iff.mpr fun id hid => ?_
  rcases List.mem_filter.mp hid with ⟨hsettled, hon⟩
  -- A single would have been switched off by the first run.
  refine Option.eq_none_iff_forall_ne_some.mpr fun s hs => ?_
  have hcandidate : id ∈ p.candidates m := (List.takeWhile_sublist _).subset hsettled
  have hoff := (isActive_run hp hm hcandidate).mpr ⟨hsettled, s, single?_eq_some.mp hs⟩
  rw [hon] at hoff
  cases hoff

/-- A second run changes nothing. -/
theorem model_run_run (hp : p.reduce = Poly.reduce) (hm : m.Sound) :
    (p.run (p.run m).model).model = (p.run m).model := by
  rw [model_run hp (sound_rereads_run hp hm).1, singles_settled_run hp hm]
  rfl

/-- A second run fails if the first one did, with the same reason. -/
theorem error_run_run_iff (hp : p.reduce = Poly.reduce) (hm : m.Sound) {e : FoldError α} :
    (p.run (p.run m).model).result = .error e ↔ (p.run m).result = .error e := by
  rw [model_run hp hm]
  exact run_error_foldAll_singles_iff hp hm fun _ => accepts_of_mem_settled

/-- A run that succeeds can be repeated. The second run succeeds as well and leaves
    the model as it is. It visits the constraints that the first one left alone and
    leaves them alone for the same causes, with nothing else to report. -/
theorem run_run_of_ok (hp : p.reduce = Poly.reduce) (hm : m.Reachable) {report : Report α}
    (h : (p.run m).result = .ok report) :
    (p.run (p.run m).model).result = .ok
        { visited := report.skippedNonlinear + report.skippedNonSingle
          deactivated := 0
          degenerate := 0
          skippedNonlinear := report.skippedNonlinear
          skippedNonSingle := report.skippedNonSingle
          boundUpdates := []
          valueRepairs := [] } ∧
      (p.run (p.run m).model).model = (p.run m).model := by
  have hsound := hm.sound
  rcases sound_rereads_run hp hsound with ⟨hsound', hreread⟩
  refine ⟨?_, model_run_run hp hsound⟩
  cases hagain : (p.run (p.run m).model).result with
  | error e =>
      rw [(error_run_run_iff hp hsound).mp hagain] at h
      cases h
  | ok report' =>
      have hcounts : report'.counts = report.counts.skipped := by
        rw [counts_of_run hp hsound' hagain, candidates_run hp hsound, tallyAt_rereads hreread,
          counts_of_run hp hsound h]
        exact sum_tallyAt_filter (accepts_of_run hp hsound h)
          fun _ => isActive_run_of_ok hp hsound h
      -- No candidate of the second run is a single, so it records no change.
      have hnone := singles_settled_run hp hsound
      rw [settled_of_run hp hsound' hagain] at hnone
      rcases visitAll_of_run hagain with ⟨r, hr, -, hreport⟩
      have hchanges := changes_of_visitAll (r := { model := (p.run m).model }) hnone hr
      rw [hreport] at hchanges
      exact congrArg Except.ok (Report.eq_of_counts hcounts hchanges.1 hchanges.2)

/-- Of four constraints, `2 * x ≤ 6` and `2 * z ≤ 8`, where the factor is a fixed variable, are
    folded. A second run meets `x * z ≤ 1` and `x + z ≤ 5` and leaves them alone again. -/
theorem run_run_of_ok_skipped :
    ∃ m : Model Float,
      m = (Model.empty : Model Float).after [.addVariable { value := some 10 },
        .addVariable { value := some 2, fixed := true }, .addVariable {},
        .addConstraintTo rootBlock (.term ⟨0⟩ 2) ⟨none, some 6⟩,
        .addConstraintTo rootBlock (.product ⟨0⟩ ⟨2⟩ 1) ⟨none, some 1⟩,
        .addConstraintTo rootBlock (.affine [(⟨0⟩, 1), (⟨2⟩, 1)] 0) ⟨none, some 5⟩,
        .addConstraintTo rootBlock (.product ⟨1⟩ ⟨2⟩ 1) ⟨none, some 8⟩] ∧
      standard.candidates m = [⟨0⟩, ⟨1⟩, ⟨2⟩, ⟨3⟩] ∧
      (standard.run (standard.run m).model).result = .ok
        { visited := 2, skippedNonlinear := 1, skippedNonSingle := 1 } ∧
      (standard.run (standard.run m).model).model = (standard.run m).model := by
  set m : Model Float := Model.empty.after [.addVariable { value := some 10 },
    .addVariable { value := some 2, fixed := true }, .addVariable {},
    .addConstraintTo rootBlock (.term ⟨0⟩ 2) ⟨none, some 6⟩,
    .addConstraintTo rootBlock (.product ⟨0⟩ ⟨2⟩ 1) ⟨none, some 1⟩,
    .addConstraintTo rootBlock (.affine [(⟨0⟩, 1), (⟨2⟩, 1)] 0) ⟨none, some 5⟩,
    .addConstraintTo rootBlock (.product ⟨1⟩ ⟨2⟩ 1) ⟨none, some 8⟩] with hm
  rcases exists_ok_of_isOk (show (standard.run m).result.isOk = true by decide +kernel) with
    ⟨report, h⟩
  have hcounts : (standard.run m).result.toOption.map
      (fun r => (r.skippedNonlinear, r.skippedNonSingle)) = some (1, 1) := by decide +kernel
  rw [h] at hcounts
  rcases Prod.mk.inj (Option.some.inj hcounts) with ⟨hnonlinear, hnonSingle⟩
  rcases run_run_of_ok rfl ⟨_, hm.symm⟩ h with ⟨hresult, hmodel⟩
  rw [hnonlinear, hnonSingle] at hresult
  exact ⟨m, rfl, by decide +kernel, hresult, hmodel⟩

/-- A run that fails can be repeated. The second run fails with the same reason and
    leaves the model as the first one has left it. -/
theorem run_run_of_error (hp : p.reduce = Poly.reduce) (hm : m.Reachable) {e : FoldError α}
    (h : (p.run m).result = .error e) :
    (p.run (p.run m).model).result = .error e ∧
      (p.run (p.run m).model).model = (p.run m).model :=
  ⟨(error_run_run_iff hp hm.sound).mpr h, model_run_run hp hm.sound⟩

/-- The first constraint is folded and the second one refused, as `1e-7 * x` cannot be at
    least `1e304`. The second run meets the second one alone and fails in the same way. -/
theorem run_run_of_error_overflow :
    ∃ (m : Model Float) (e : FoldError Float),
      m = (Model.empty : Model Float).after [.addVariable {},
        .addConstraintTo rootBlock (.term ⟨0⟩ 2) ⟨none, some 6⟩,
        .addConstraintTo rootBlock (.term ⟨0⟩ 1e-7) ⟨some 1e304, some 1e305⟩] ∧
      (standard.run m).result = .error e ∧
      standard.candidates (standard.run m).model = [⟨1⟩] ∧
      (standard.run (standard.run m).model).result = .error e ∧
      (standard.run (standard.run m).model).model = (standard.run m).model := by
  set m : Model Float := Model.empty.after [.addVariable {},
    .addConstraintTo rootBlock (.term ⟨0⟩ 2) ⟨none, some 6⟩,
    .addConstraintTo rootBlock (.term ⟨0⟩ 1e-7) ⟨some 1e304, some 1e305⟩] with hm
  cases h : (standard.run m).result with
  | ok report =>
      have hfails : (standard.run m).result.isOk = false := by decide +kernel
      rw [h] at hfails
      cases hfails
  | error e =>
      rcases run_run_of_error rfl ⟨_, hm.symm⟩ h with ⟨hresult, hmodel⟩
      exact ⟨m, e, rfl, h, by decide +kernel, hresult, hmodel⟩

end Pass

end Presolve
