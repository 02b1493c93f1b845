import Presolve.Proofs.Model.Sound
import Presolve.Proofs.Scalar.Double

/-!
# Numbers of a Model

Which numbers a model can come to hold. A number that is no number is held nowhere, and
an infinity is held by a variable only: as a value, or as a bound on the side where it
restricts something. The bounds of a constraint are finite and in order.

Numbers come in through several operations, and what each of them checks is not the
same. New entries lose both infinities of a pair, while a single bound that is set loses
only the one that restricts nothing and may then lie on the wrong side of the other. A
comparison with NaN fails, so a check that compares lets it through. What is proved here
does not depend on the arguments, and a run may go on with any reduction.

## Main definitions

* `Variable.Numeric`, `Constraint.Numeric`: Which numbers an entry may hold.
* `Model.Restricting`: No infinity is held for nothing.
* `Model.Numeric`: Which numbers a model may hold.

## Theorems

* `Model.Restricting.change`: Changes bring in no such infinity.
* `Model.Sound.isSome_fixedValue_iff`: The variables that stand for a number.
* `Model.Reachable.numeric`: The numbers of every reachable model.
-/

namespace Presolve

open Scalar

variable {α : Type} [Scalar α]

theorem Side.isUnbounding_of_not_infinite (s : Side) {x : α} (h : isInfinite x = false) :
    s.isUnbounding x = false := by
  cases s <;> simp only [isUnbounding, h, Bool.false_and]

theorem Bounds.not_infinite_of_mem_dropInfinite {b : Bounds α} (s : Side) {x : α}
    (h : x ∈ b.dropInfinite.get s) : isInfinite x = false := by
  have hfilter {y : Option α} (hx : x ∈ y.filter (!isInfinite ·)) : isInfinite x = false := by
    rw [Option.mem_filter_iff, Bool.not_eq_true'] at hx
    exact hx.2
  cases s
  · exact hfilter h
  · exact hfilter h

/-- The bounds of a variable are numbers that restrict something, its value is a number,
    and it has one if it is fixed. -/
structure Variable.Numeric (v : Variable α) : Prop where
  bound : ∀ s : Side, ∀ x ∈ v.bounds.get s, IsNumber x ∧ s.isUnbounding x = false
  value : ∀ x ∈ v.value, IsNumber x
  fixed : v.fixed = true → v.value.isSome = true

/-- The bounds of a constraint are finite and in order. -/
structure Constraint.Numeric (c : Constraint α) : Prop where
  bound : ∀ s : Side, ∀ x ∈ c.bounds.get s, isFinite x = true
  ordered : ∀ l ∈ c.bounds.lower, ∀ u ∈ c.bounds.upper, l ≤ u

namespace Model

variable {m m' : Model α}

/-- No variable holds an infinity that restricts nothing, and no constraint an infinity. -/
structure Restricting (m : Model α) : Prop where
  vars : ∀ (i : Nat) (v : Variable α), m.vars[i]? = some v →
    ∀ s : Side, ∀ x ∈ v.bounds.get s, s.isUnbounding x = false
  constraints : ∀ (i : Nat) (c : Constraint α), m.constraints[i]? = some c →
    ∀ s : Side, ∀ x ∈ c.bounds.get s, isInfinite x = false

theorem restricting_empty : (empty : Model α).Restricting where
  vars _ _ h := by cases h
  constraints _ _ h := by cases h

/-- A change of one variable that keeps its bounds brings in no infinity. -/
theorem Restricting.modifyVariable (h : m.Restricting) {id : VariableId}
    {f : Variable α → Variable α} (hf : ∀ v, (f v).bounds = v.bounds) :
    (m.modifyVariable id f).Restricting where
  vars := forall_getElem?_modify h.vars fun v _ hv => by rwa [hf v]
  constraints := h.constraints

/-- Changes bring in no infinity that restricts nothing. -/
theorem Restricting.change (h : m.Restricting) (hchange : Change m m') : m'.Restricting := by
  cases hchange with
  | addVariable v =>
      refine ⟨forall_getElem?_push h.vars fun s x hx => ?_, h.constraints⟩
      exact s.isUnbounding_of_not_infinite (Bounds.not_infinite_of_mem_dropInfinite s hx)
  | addConstraint block b body bounds =>
      refine ⟨h.vars, forall_getElem?_push h.constraints fun s x hx => ?_⟩
      exact Bounds.not_infinite_of_mem_dropInfinite s hx
  | switchConstraint id active =>
      exact ⟨h.vars, forall_getElem?_modify h.constraints fun _ _ hc => hc⟩
  | setBound id side x _ hrestricts =>
      -- The bound on the other side is kept, and the new one was checked.
      refine ⟨forall_getElem?_modify h.vars fun v _ hv => ?_, h.constraints⟩
      exact Bounds.forall_get_set (P := fun t a => t.isUnbounding a = false) hv hrestricts
  | setValue | setFixed =>
      -- A value may be infinite, so it is not looked at here.
      exact h.modifyVariable fun _ => rfl
  | addBlock | switchBlock | nameVariable | nameConstraint => exact ⟨h.vars, h.constraints⟩

theorem Reachable.restricting (h : m.Reachable) : m.Restricting :=
  h.induction restricting_empty fun _ _ hchange hrestricting => hrestricting.change hchange

/-- The entries of the model hold no other numbers, and the variables that stand for a
    number are the fixed ones. -/
structure Numeric (m : Model α) : Prop where
  vars : ∀ v ∈ m.vars, v.Numeric
  constraints : ∀ c ∈ m.constraints, c.Numeric
  fixedValue : ∀ id, (m.fixedValue id).isSome = true
    ↔ ∃ v, m.variableAt id = .ok v ∧ v.fixed = true

/-- A variable stands for a number if it exists and is fixed. -/
theorem Sound.isSome_fixedValue_iff (h : m.Sound) (id : VariableId) :
    (m.fixedValue id).isSome = true ↔ ∃ v, m.variableAt id = .ok v ∧ v.fixed = true := by
  simp only [fixedValue, Option.isSome_bind, variableAt_eq_ok, Option.any_eq_true,
    Option.filter_eq_some_iff]
  constructor
  · rintro ⟨v, ⟨hv, hfixed⟩, -⟩
    exact ⟨v, hv, hfixed⟩
  · rintro ⟨v, hv, hfixed⟩
    exact ⟨v, ⟨hv, hfixed⟩, (h.vars _ v hv).fixed hfixed⟩

/-- Whatever is done to a model with whatever arguments, it holds numbers only, the bounds
    of its constraints are finite and in order, and its fixed variables have values. -/
theorem Reachable.numeric [OrderedScalar α] (h : m.Reachable) : m.Numeric where
  vars v hv := by
    rcases Array.mem_iff_getElem?.mp hv with ⟨i, hi⟩
    have hsound := h.sound.vars i v hi
    refine ⟨fun s x hx => ?_, hsound.value, hsound.fixed⟩
    exact ⟨(Bounds.hasNaN_iff _).mp hsound.bounds s x hx, h.restricting.vars i v hi s x hx⟩
  constraints c hc := by
    rcases Array.mem_iff_getElem?.mp hc with ⟨i, hi⟩
    have hsound := h.sound.constraints i c hi
    refine ⟨fun s x hx => isFinite_iff.mpr ⟨?_, h.restricting.constraints i c hi s x hx⟩, ?_⟩
    · exact (Bounds.hasNaN_iff _).mp hsound.bounds s x hx
    · intro l hl u hu
      exact Bounds.le_of_ordered hsound.bounds hsound.ordered hl hu
  fixedValue := h.sound.isSome_fixedValue_iff

/-- NaN is refused as a bound and as a value. The first variable loses the infinities it
    comes with and the one that would be no upper bound, but it keeps positive infinity as a
    lower bound and is fixed there. The second one is fixed and cannot lose its value. The
    run takes every body for twice the second variable, so the first constraint, whose
    lower infinity is left out, gives it the upper bound `3` and moves its value; the second
    one has NaN for a constant, so the run fails there. -/
theorem numeric_refusals :
    ∃ (m : Model Float) (p : Pass Float),
      p.reduce = (fun body _ => .ok (.linear ⟨body.constant, [(⟨1⟩, 2)]⟩)) ∧
      m = (Model.empty : Model Float).after [
        .addVariable { bounds := ⟨some (-1 / 0), some (1 / 0)⟩ },
        .addVariable { bounds := ⟨some (0 / 0), none⟩ }, .addVariable { fixed := true },
        .addVariable { value := some 7, fixed := true },
        .setBound ⟨0⟩ .lower (some (1 / 0)), .setBound ⟨0⟩ .upper (some (1 / 0)),
        .setBound ⟨1⟩ .lower (some (-0)), .setBound ⟨1⟩ .upper (some (0 / 0)),
        .fix ⟨0⟩ (1 / 0), .setValue ⟨1⟩ none, .setValue ⟨1⟩ (some (0 / 0)),
        .addConstraintTo rootBlock (.term ⟨0⟩ 1) ⟨some (-1 / 0), some 6⟩,
        .addConstraintTo rootBlock (.ofConstant (0 / 0)) ⟨some 1, some 2⟩, .run p] ∧
      m.Numeric ∧ m.vars.toList.map (fun v => (v.bounds.lower, v.bounds.upper, v.value)) =
        [(some (1 / 0), none, some (1 / 0)), (some (-0), some 3, some 3)] ∧
      m.constraints.toList.map (·.bounds.lower.isSome) = [false, true] := by
  set p : Pass Float := ⟨.standard,
    fun body _ => .ok (.linear ⟨body.constant, [(⟨1⟩, 2)]⟩), Pass.standard.valid⟩
  set m := (Model.empty : Model Float).after [
    .addVariable { bounds := ⟨some (-1 / 0), some (1 / 0)⟩ },
    .addVariable { bounds := ⟨some (0 / 0), none⟩ }, .addVariable { fixed := true },
    .addVariable { value := some 7, fixed := true },
    .setBound ⟨0⟩ .lower (some (1 / 0)), .setBound ⟨0⟩ .upper (some (1 / 0)),
    .setBound ⟨1⟩ .lower (some (-0)), .setBound ⟨1⟩ .upper (some (0 / 0)),
    .fix ⟨0⟩ (1 / 0), .setValue ⟨1⟩ none, .setValue ⟨1⟩ (some (0 / 0)),
    .addConstraintTo rootBlock (.term ⟨0⟩ 1) ⟨some (-1 / 0), some 6⟩,
    .addConstraintTo rootBlock (.ofConstant (0 / 0)) ⟨some 1, some 2⟩, .run p] with hm
  exact ⟨m, p, rfl, rfl, Reachable.numeric ⟨_, hm.symm⟩, by decide +kernel, by decide +kernel⟩

end Model

end Presolve
