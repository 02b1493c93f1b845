import Presolve.Proofs.Fold.Result
import Presolve.Proofs.Scalar.Double

/-!
# Values after a Run

Where a run that succeeds leaves the values of variables. A constraint that is
switched off may have been the last one to speak of its variable, so the value is
moved between the bounds of the variable each time a constraint is folded into
it. On the way it may be moved between bounds that later constraints tighten or
cross. In the end it is where the value from the start of the run comes to if it
is moved once, up to the last lower bound and then down to the last upper one.

A constraint whose coefficient is degenerate tightens nothing. It is switched off
all the same, so the value of its variable is moved as well. A variable into
which no constraint is folded keeps its value, even if the value lies outside the
bounds.

## Main definitions

* `Pass.FoldsInto`: A run folds some constraint into a variable.

## Theorems

* `Variable.beq_clamp_of_imposeAll`: Many moves come to one.
* `Pass.foldsInto_iff`: What is folded into a variable is imposed on it.
* `Pass.value_run`: Values after a run that succeeds.
-/

namespace Presolve

open Scalar OrderedScalar

variable {α : Type} [Scalar α]

/-- The run switches a constraint off that is about this variable alone. -/
def Pass.FoldsInto (p : Pass α) (m : Model α) (var : VariableId) : Prop :=
  ∃ id s, m.isActive id = true ∧ (p.run m).model.isActive id = false ∧
    p.finding m id = .ok (.single s) ∧ s.var = var

variable [OrderedScalar α]

namespace Bounds

variable {b : Bounds α} {x y : α}

theorem contains_of_beq (h : (x == y) = true) (hx : b.Contains x) : b.Contains y :=
  ⟨fun l hl => le_trans (hx.1 l hl) (le_of_beq h),
    fun u hu => le_trans (le_of_beq (beq_symm h)) (hx.2 u hu)⟩

end Bounds

namespace Variable

variable {v : Variable α} {bs : List (Bounds α)}

theorem sound_imposeAll (h : v.Sound) (hbs : ∀ b ∈ bs, b.hasNaN = false) :
    (v.imposeAll bs).Sound := by
  induction bs generalizing v with
  | nil => exact h
  | cons b rest ih =>
      exact ih (Pass.sound_impose h (hbs b List.mem_cons_self))
        fun c hc => hbs c (List.mem_cons_of_mem _ hc)

/-- However often a value was moved while bounds were imposed, it equals the first
    value moved once between the last bounds. -/
theorem beq_clamp_of_imposeAll (h : v.Sound) (hbs : ∀ b ∈ bs, b.hasNaN = false) (hne : bs ≠ [])
    {x : α} (hx : v.value = some x) :
    ∃ y ∈ (v.imposeAll bs).value, (y == (v.imposeAll bs).bounds.clamp x) = true := by
  rcases place_imposeAll h hbs hne hx with ⟨y, hy, hnumber, hplace⟩
  have hclamp := Bounds.place_clamp (sound_imposeAll h hbs).bounds (h.value x hx)
  exact ⟨y, hy, beq_iff.mpr ⟨hnumber, hclamp.1, hplace.trans hclamp.2.symm⟩⟩

end Variable

namespace Pass

variable {p : Pass α} {m : Model α} {var : VariableId}

/-- A run folds a constraint into a variable if and only if it imposes bounds on
    it, which may be empty. -/
theorem foldsInto_iff (hp : p.reduce = Poly.reduce) (hm : m.Sound) {report : Report α}
    (h : (p.run m).result = .ok report) :
    p.FoldsInto m var ↔ p.imposedOn (p.foldable m) var.index ≠ [] := by
  have hoff {id : ConstraintId} (hid : m.isActive id = true) :
      (p.run m).model.isActive id = false
        ↔ (p.foldable m).any (·.constraint.index == id.index) = true := by
    rw [model_of_run hp hm h, isActive_foldAll, hid, Bool.true_and, Bool.not_eq_false']
  constructor
  · rintro ⟨id, s, hon, hswitched, hfinding, rfl⟩
    -- Only candidates were switched off, so the single is one that was folded.
    have hcandidate := (any_singles.mp ((hoff hon).mp hswitched)).1
    have hs : s ∈ p.foldable m := mem_singles.mpr ⟨id, hcandidate, hfinding⟩
    have hmem : p.imposed s ∈ p.imposedOn (p.foldable m) s.var.index :=
      List.mem_map_of_mem (List.mem_filter.mpr ⟨hs, beq_self_eq_true _⟩)
    exact List.ne_nil_of_mem hmem
  · intro hne
    rcases List.exists_mem_of_ne_nil _ hne with ⟨b, hb⟩
    rcases exists_of_mem_imposedOn hb with ⟨s, hs, hvar, -⟩
    rcases mem_singles.mp hs with ⟨id, hid, hfinding⟩
    have hon : m.isActive id = true := Model.isActive_of_mem_activeConstraints hid
    exact ⟨id, s, hon, (hoff hon).mpr (any_singles.mpr ⟨hid, s, hfinding⟩), hfinding,
      Id.index_inj hvar⟩

/-- After a run that succeeds, a variable into which a constraint was folded has
    its first value moved once between its last bounds. So the value lies within
    them if they are not crossed, and equals the upper one if they are. No
    variable gains a value, and all other values are as they were. -/
theorem value_run (hp : p.reduce = Poly.reduce) (hm : m.Reachable) {report : Report α}
    (h : (p.run m).result = .ok report) {v : Variable α} (hv : m.variableAt var = .ok v) :
    ∃ v', (p.run m).model.variableAt var = .ok v' ∧
      (v.value = none → v'.value = none) ∧
      (¬ p.FoldsInto m var → v'.value = v.value) ∧
      (p.FoldsInto m var → ∀ x ∈ v.value, ∃ y ∈ v'.value,
        (y == v'.bounds.clamp x) = true ∧
        (v'.bounds.crossed = false → v'.bounds.Contains y) ∧
        (v'.bounds.crossed = true → ∃ u ∈ v'.bounds.upper, (y == u) = true)) := by
  have hsound := hm.sound
  have hget := Model.variableAt_eq_ok.mp hv
  have hvsound := hsound.vars _ v hget
  have hbs := hasNaN_of_mem_imposedOn hp hsound (accepts_of_run hp hsound h) (i := var.index)
  rw [foldsInto_iff hp hsound h]
  -- The variable after the run has the bounds of its singles imposed on it.
  refine ⟨v.imposeAll (p.imposedOn (p.foldable m) var.index), ?_, ?_, ?_, ?_⟩
  · rw [model_of_run hp hsound h, Model.variableAt_eq_ok, vars_foldAll, hget, Option.map_some]
  · exact Variable.value_imposeAll_none
  · intro hnone
    rw [not_ne_iff.mp hnone]
    rfl
  · intro hsome x hx
    have hnumber := hvsound.value x hx
    have hlast := (Variable.sound_imposeAll hvsound hbs).bounds
    rcases Variable.beq_clamp_of_imposeAll hvsound hbs hsome hx with ⟨y, hy, hbeq⟩
    refine ⟨y, hy, hbeq, fun hordered => ?_, fun hcrossed => ?_⟩
    · exact Bounds.contains_of_beq (beq_symm hbeq) (Bounds.contains_clamp hlast hordered hnumber)
    · rcases Bounds.clamp_of_crossed hlast hcrossed hnumber with ⟨u, hu, heq⟩
      exact ⟨u, hu, heq ▸ hbeq⟩

/-- The constraints `x ≤ 3` and `-x ≤ -5` are folded into `x` with the value `10`, which
    they move twice. The bounds are crossed afterwards, and the value is the upper one. -/
theorem value_run_crossed :
    ∃ (m : Model Float) (v' : Variable Float),
      m = (Model.empty : Model Float).after [.addVariable { value := some 10 },
        .addConstraintTo rootBlock (.term ⟨0⟩ 1) ⟨none, some 3⟩,
        .addConstraintTo rootBlock (.term ⟨0⟩ (-1)) ⟨none, some (-5)⟩] ∧
      standard.FoldsInto m ⟨0⟩ ∧ (standard.run m).model.variableAt ⟨0⟩ = .ok v' ∧
      v'.bounds.crossed = true ∧ ∃ y ∈ v'.value, (y == v'.bounds.clamp 10) = true ∧
        ∃ u ∈ v'.bounds.upper, (y == u) = true := by
  set m : Model Float := Model.empty.after [.addVariable { value := some 10 },
    .addConstraintTo rootBlock (.term ⟨0⟩ 1) ⟨none, some 3⟩,
    .addConstraintTo rootBlock (.term ⟨0⟩ (-1)) ⟨none, some (-5)⟩] with hm
  rcases exists_ok_of_isOk (show (standard.run m).result.isOk = true by decide +kernel) with
    ⟨report, h⟩
  have hfolds : standard.FoldsInto m ⟨0⟩ := by
    have hsingle : (standard.single? m ⟨0⟩).map (·.var) = some ⟨0⟩ := by decide +kernel
    rcases Option.map_eq_some_iff.mp hsingle with ⟨s, hs, hvar⟩
    exact ⟨⟨0⟩, s, by decide +kernel, by decide +kernel, single?_eq_some.mp hs, hvar⟩
  rcases value_run rfl ⟨_, hm.symm⟩ h (show m.variableAt ⟨0⟩ = .ok { value := some 10 } from rfl) with
    ⟨v', hv', -, -, hvalue⟩
  have hcrossed : (standard.run m).model.vars[(⟨0⟩ : VariableId).index]?.any (·.bounds.crossed)
      = true := by decide +kernel
  have hv'crossed : v'.bounds.crossed = true := by
    rwa [Model.variableAt_eq_ok.mp hv', Option.any_some] at hcrossed
  rcases hvalue hfolds 10 rfl with ⟨y, hy, hclamp, -, hupper⟩
  exact ⟨m, v', rfl, hfolds, hv', hv'crossed, y, hy, hclamp, hupper hv'crossed⟩

end Pass

end Presolve
