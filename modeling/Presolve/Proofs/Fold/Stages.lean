import Presolve.Proofs.Fold.Permutation
import Presolve.Proofs.Fold.Refusal

/-!
# Folding in Stages

A run need not meet its candidates as they were at first. Some of them may have
been folded already, by a run that was stopped or by one that came before others
were added, and those are off. What is left is found to be what it was found to
be, so nothing is lost by folding some of the constraints ahead. If all of them
were accepted, a run afterwards fails at the constraint where it would have
failed, and for the same reason, or it folds the rest.

Which constraints come first makes a difference to the order in which bounds are
imposed, and so at most to the sign of a zero.

## Theorems

* `Pass.isActive_foldAll_singles`: What is off after folding ahead.
* `Pass.run_error_foldAll_singles_iff`: A run afterwards fails as it would have failed.
* `Pass.singles_append_foldable_perm`: A run afterwards folds the rest.
* `Pass.agrees_run_foldAll_singles`: The models agree.
-/

namespace Presolve

section Lists

variable {β γ : Type} {keep : β → Bool} {l : List β}

/-- Nothing is lost by leaving out what gives nothing. -/
theorem filterMap_filter_of_none {f : β → Option γ} (h : ∀ a ∈ l, keep a = false → f a = none) :
    (l.filter keep).filterMap f = l.filterMap f := by
  rw [List.filterMap_filter]
  refine List.filterMap_congr fun a ha => ?_
  cases hkeep : keep a with
  | true => rfl
  | false => exact (h a ha hkeep).symm

theorem findSome?_filter_of_none {f : β → Option γ} (h : ∀ a ∈ l, keep a = false → f a = none) :
    (l.filter keep).findSome? f = l.findSome? f := by
  rw [← List.head?_filterMap, ← List.head?_filterMap, filterMap_filter_of_none h]

end Lists

variable {α : Type} [Scalar α]

namespace Pass

variable {p : Pass α} {m : Model α} {ids : List ConstraintId}

theorem candidates_foldAll (p : Pass α) (m : Model α) (ss : List (Single α)) :
    p.candidates (p.foldAll m ss) = (p.candidates m).filter (p.foldAll m ss).isActive :=
  activeConstraints_foldAll ..

/-- Folding what is single among some constraints switches the singles off. -/
theorem isActive_foldAll_singles {id : ConstraintId} (hid : id ∈ p.candidates m) :
    (p.foldAll m (p.singles m ids)).isActive id = false
      ↔ id ∈ ids ∧ ∃ s, p.finding m id = .ok (.single s) := by
  rw [isActive_foldAll, Model.isActive_of_mem_activeConstraints hid, Bool.true_and,
    Bool.not_eq_false', any_singles]

variable [OrderedScalar α]

/-- What was folded ahead was not refused, so the first refusal is the same. -/
theorem findSome?_refusal_foldAll_singles (hp : p.reduce = Poly.reduce) (hm : m.Sound)
    (hall : ∀ id ∈ ids, p.Accepts m id) :
    (p.candidates (p.foldAll m (p.singles m ids))).findSome?
        (p.refusal? (p.foldAll m (p.singles m ids)))
      = (p.candidates m).findSome? (p.refusal? m) := by
  rw [candidates_foldAll, refusal?_rereads (sound_rereads_foldAll_singles hp hm hall).2]
  refine findSome?_filter_of_none fun id hid hoff => refusal?_eq_none.mpr ?_
  exact hall id ((isActive_foldAll_singles hid).mp hoff).1

/-- A run fails after some constraints were folded ahead if and only if it would
    have failed without, and for the same reason. -/
theorem run_error_foldAll_singles_iff (hp : p.reduce = Poly.reduce) (hm : m.Sound)
    (hall : ∀ id ∈ ids, p.Accepts m id) {e : FoldError α} :
    (p.run (p.foldAll m (p.singles m ids))).result = .error e ↔ (p.run m).result = .error e := by
  rw [run_error_iff hp (sound_rereads_foldAll_singles hp hm hall).1,
    findSome?_refusal_foldAll_singles hp hm hall, ← run_error_iff hp hm]

theorem run_ok_foldAll_singles_iff (hp : p.reduce = Poly.reduce) (hm : m.Sound)
    (hall : ∀ id ∈ ids, p.Accepts m id) :
    (∃ report, (p.run (p.foldAll m (p.singles m ids))).result = .ok report)
      ↔ ∃ report, (p.run m).result = .ok report := by
  rw [run_ok_iff hp (sound_rereads_foldAll_singles hp hm hall).1,
    findSome?_refusal_foldAll_singles hp hm hall, ← run_ok_iff hp hm]

/-- Of the candidates of a run, some may be folded ahead. The run then folds the
    rest, which makes the same singles in another order. -/
theorem singles_append_foldable_perm (hp : p.reduce = Poly.reduce) (hm : m.Sound)
    {first : ConstraintId → Bool} (hall : ∀ id ∈ (p.candidates m).filter first, p.Accepts m id) :
    (p.singles m ((p.candidates m).filter first) ++
        p.foldable (p.foldAll m (p.singles m ((p.candidates m).filter first)))).Perm
      (p.foldable m) := by
  set ids := (p.candidates m).filter first with hids
  set m' := p.foldAll m (p.singles m ids) with hm'
  -- What is off afterwards are the singles among those that come first.
  have hoff {id : ConstraintId} (hid : id ∈ p.candidates m) :
      m'.isActive id = false ↔ id ∈ ids ∧ ∃ s, p.finding m id = .ok (.single s) :=
    isActive_foldAll_singles hid
  have hdone : p.singles m ids = p.singles m ((p.candidates m).filter (!m'.isActive ·)) := by
    have hkept : ids.filter (!m'.isActive ·) = (p.candidates m).filter (!m'.isActive ·) := by
      rw [hids, List.filter_filter]
      refine List.filter_congr fun id hid => ?_
      cases hactive : m'.isActive id with
      | true => rfl
      | false => exact (List.mem_filter.mp ((hoff hid).mp hactive).1).2
    rw [← hkept]
    refine (filterMap_filter_of_none fun id hid hon => ?_).symm
    rw [Bool.not_eq_false'] at hon
    refine Option.eq_none_iff_forall_ne_some.mpr fun s hs => ?_
    have hactive := (hoff (List.mem_of_mem_filter hid)).mpr ⟨hid, s, single?_eq_some.mp hs⟩
    rw [hon] at hactive
    cases hactive
  have hrest : p.foldable m' = p.singles m ((p.candidates m).filter m'.isActive) := by
    rw [foldable, singles_rereads (sound_rereads_foldAll_singles hp hm hall).2, hm',
      candidates_foldAll]
  rw [hdone, hrest, singles, singles, ← List.filterMap_append]
  exact singles_perm (List.perm_append_comm.trans (List.filter_append_perm _ _))

/-- Runs that succeed leave models that agree, whether or not some of the
    candidates were folded ahead. -/
theorem agrees_run_foldAll_singles (hp : p.reduce = Poly.reduce) (hm : m.Sound)
    {first : ConstraintId → Bool} {report report' : Report α} (h : (p.run m).result = .ok report)
    (h' : (p.run (p.foldAll m (p.singles m ((p.candidates m).filter first)))).result
      = .ok report') :
    (p.run (p.foldAll m (p.singles m ((p.candidates m).filter first)))).model.Agrees
      (p.run m).model := by
  have haccepts := accepts_of_run hp hm h
  have hall (id : ConstraintId) (hid : id ∈ (p.candidates m).filter first) : p.Accepts m id :=
    haccepts id (List.mem_of_mem_filter hid)
  have hperm := singles_append_foldable_perm hp hm hall
  rw [model_of_run hp (sound_rereads_foldAll_singles hp hm hall).1 h', model_of_run hp hm h,
    ← foldAll_append]
  refine agrees_foldAll hm hperm fun s hs => ?_
  exact (proper_folds_of_accepts hp hm haccepts (hperm.mem_iff.mp hs)).2

end Pass

end Presolve
