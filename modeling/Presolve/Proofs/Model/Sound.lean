import Presolve.Proofs.Bounds
import Presolve.Proofs.Model.Change

/-!
# Sound Models

What the checks of the operations amount to. No variable has NaN for a bound or
for a value, and a variable that is fixed has a value. No constraint has NaN for
a bound or bounds that are crossed, and its body refers to variables of the
model alone.

A run relies on all of this. Since every entry is checked when it comes in and
every change of an entry is checked as well, all reachable models are sound.

## Main definitions

* `Variable.Sound`, `Constraint.Sound`: What holds of an entry.
* `Model.Sound`: It holds of all entries.

## Theorems

* `Model.Sound.change`: Changes keep a model sound.
* `Model.Reachable.sound`: Every reachable model is sound.
-/

namespace Presolve

open Scalar

variable {α : Type} [Scalar α]

/-- The numbers of a variable are numbers, and it has a value if it is fixed. -/
structure Variable.Sound (v : Variable α) : Prop where
  bounds : v.bounds.hasNaN = false
  value : ∀ x ∈ v.value, IsNumber x
  fixed : v.fixed = true → v.value.isSome = true

/-- The bounds of a constraint are numbers in order, and its variables are among
    the first `n`. -/
structure Constraint.Sound (n : Nat) (c : Constraint α) : Prop where
  bounds : c.bounds.hasNaN = false
  ordered : c.bounds.crossed = false
  vars : ∀ v ∈ c.body.occurrences, v.index < n

/-- All entries of the model are sound. -/
structure Model.Sound (m : Model α) : Prop where
  vars : ∀ (i : Nat) (v : Variable α), m.vars[i]? = some v → v.Sound
  constraints : ∀ (i : Nat) (c : Constraint α), m.constraints[i]? = some c → c.Sound m.vars.size

theorem Constraint.Sound.mono {n k : Nat} {c : Constraint α} (h : c.Sound n) (hle : n ≤ k) :
    c.Sound k :=
  ⟨h.bounds, h.ordered, fun v hv => (h.vars v hv).trans_le hle⟩

theorem Variable.Sound.setBounds {v : Variable α} (h : v.Sound) {b : Bounds α}
    (hb : b.hasNaN = false) : ({ v with bounds := b } : Variable α).Sound :=
  ⟨hb, h.value, h.fixed⟩

namespace Model

variable {m m' : Model α}

theorem sound_empty : (empty : Model α).Sound where
  vars _ _ h := by cases h
  constraints _ _ h := by cases h

/-- Changing one variable keeps a model sound if it keeps that variable sound. -/
theorem Sound.modifyVariable (h : m.Sound) {id : VariableId} {f : Variable α → Variable α}
    (hf : ∀ v, m.variableAt id = .ok v → v.Sound → (f v).Sound) :
    (m.modifyVariable id f).Sound where
  vars := forall_getElem?_modify h.vars fun v hv => hf v (variableAt_eq_ok.mpr hv)
  constraints := by
    intro i c hc
    rw [size_vars_modifyVariable]
    exact h.constraints i c hc

/-- The switch of a constraint is no part of what makes it sound. -/
theorem Sound.switchConstraint (h : m.Sound) (id : ConstraintId) (active : Bool) :
    (m.modifyConstraint id fun c => { c with active }).Sound where
  vars := h.vars
  constraints := forall_getElem?_modify h.constraints fun _ _ hc =>
    ⟨hc.bounds, hc.ordered, hc.vars⟩

/-- A constraint that was checked keeps a model sound. -/
theorem Sound.withConstraint (h : m.Sound) (block : BlockId) {r : Ranged α}
    (hnan : r.bounds.hasNaN = false) (hordered : r.bounds.crossed = false)
    (hvars : ∀ v ∈ r.body.occurrences, v.index < m.vars.size) :
    (m.withConstraint block r).Sound where
  vars := h.vars
  constraints := forall_getElem?_push h.constraints ⟨hnan, hordered, hvars⟩

/-- Changes keep a model sound. -/
theorem Sound.change (h : m.Sound) (hchange : Change m m') : m'.Sound := by
  cases hchange with
  | addVariable v hnan _ hvalue hfixed =>
      refine ⟨forall_getElem?_push h.vars ⟨hnan, hvalue, hfixed⟩, fun i c hc => ?_⟩
      -- Constraints refer to variables there were before.
      rw [Array.size_push]
      exact (h.constraints i c hc).mono (Nat.le_succ _)
  | addConstraint block b body bounds _ hnan hcrossed hvars =>
      exact h.withConstraint block (r := .ofBounds body bounds) hnan hcrossed hvars
  | addBlock parent b name _ _ => exact ⟨h.vars, h.constraints⟩
  | switchBlock id active => exact ⟨h.vars, h.constraints⟩
  | switchConstraint id active => exact h.switchConstraint id active
  | setBound id side x hnumber _ =>
      exact h.modifyVariable fun v _ hv => hv.setBounds (Bounds.hasNaN_set hv.bounds hnumber)
  | setValue id x hnumber hfixed =>
      exact h.modifyVariable fun v hv hsound => ⟨hsound.bounds, hnumber, hfixed v hv⟩
  | setFixed id fixed hvalue =>
      exact h.modifyVariable fun v hv hsound => ⟨hsound.bounds, hsound.value, hvalue v hv⟩
  | nameVariable id v name _ => exact ⟨h.vars, h.constraints⟩
  | nameConstraint id c name _ => exact ⟨h.vars, h.constraints⟩

theorem Sound.changes (h : m.Sound) (hchanges : Changes m m') : m'.Sound := by
  induction hchanges with
  | refl => exact h
  | tail _ hchange ih => exact ih.change hchange

theorem Reachable.sound (h : m.Reachable) : m.Sound :=
  h.induction sound_empty fun _ _ hchange hsound => hsound.change hchange

end Model

end Presolve
