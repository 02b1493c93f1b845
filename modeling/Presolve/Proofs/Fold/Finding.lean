import Presolve.Proofs.Model.Sound
import Presolve.Proofs.Poly.Terms

/-!
# Findings

What a pass finds a constraint to be, before it does anything about it. A
constraint is left alone because of a product of unknowns or because it does not
speak of exactly one variable, or it is a `Single`, which is a variable, two
numbers and the bounds of the constraint. A single implies a number for each
side of its variable for which it has a bound, and it can be folded unless one
of the numbers could not be respected by any value.

A finding depends on the body and the bounds of the constraint and on the
numbers that variables are fixed at. Folding changes none of these, as the
variable of a single is never a fixed one, so what a run finds at a constraint
is what it would have found there before its first step.

## Main definitions

* `Single`: A constraint about one variable.
* `Single.number`: The number it implies for one side of the variable.
* `Single.implied`: The numbers that restrict the variable.
* `Finding`: What a constraint is found to be.
* `Pass.finding`: What a pass finds in a model.
* `Pass.Folds`: A single can be folded by a pass.
* `Pass.Accepts`: A pass does not fail at a constraint.
* `Single.Proper`: What is known of a single found in a sound model.
* `Model.Rereads`: A pass finds the same in two models.

## Theorems

* `Pass.finding_rereads`: Findings are the same in models that reread.
* `Pass.proper_of_finding`: The singles of a sound model are proper.
* `Single.hasNaN_implied`: A single that can be folded implies numbers.
-/

namespace Presolve

open Scalar OrderedScalar

/-- A constraint that holds `coefficient * var + constant` between bounds. -/
structure Single (α : Type) where
  constraint : ConstraintId
  var : VariableId
  coefficient : α
  constant : α
  bounds : Bounds α

/-- What a constraint is found to be. -/
inductive Finding (α : Type) where
  /-- A product of this many unknowns is in it. -/
  | nonlinear (degree : Nat)
  /-- It speaks of this many variables, which is not one. -/
  | nonSingle (vars : Nat)
  /-- It is about one variable. -/
  | single (s : Single α)

variable {α : Type}

/-- The single, if it is one. -/
def Finding.single? : Finding α → Option (Single α)
  | single s => some s
  | _ => none

theorem Finding.single?_eq_some {f : Finding α} {s : Single α} :
    f.single? = some s ↔ f = .single s := by
  cases f with
  | nonlinear degree => simp only [single?, reduceCtorEq]
  | nonSingle vars => simp only [single?, reduceCtorEq]
  | single t => simp only [single?, Option.some.injEq, single.injEq]

/-- The bounds with a given number on each side. -/
def Bounds.ofSides (f : Side → Option α) : Bounds α := ⟨f .lower, f .upper⟩

@[simp] theorem Bounds.get_ofSides (f : Side → Option α) (s : Side) :
    (Bounds.ofSides f).get s = f s := by
  cases s <;> rfl

/-- A pass finds the same in two models: the fixed numbers are the same, and so
    are the bodies and the bounds of all constraints. -/
structure Model.Rereads (m' m : Model α) : Prop where
  fixed : m'.fixedValue = m.fixedValue
  size : m'.vars.size = m.vars.size
  ranged : ∀ i : Nat,
    (m'.constraints[i]?).map Constraint.toRanged = (m.constraints[i]?).map Constraint.toRanged

theorem Model.Rereads.refl (m : Model α) : m.Rereads m := ⟨rfl, rfl, fun _ => rfl⟩

theorem Model.Rereads.trans {a b c : Model α} (hab : a.Rereads b) (hbc : b.Rereads c) :
    a.Rereads c :=
  ⟨hab.fixed.trans hbc.fixed, hab.size.trans hbc.size,
    fun i => (hab.ranged i).trans (hbc.ranged i)⟩

variable [Scalar α]

namespace Single

/-- The number that the constraint implies for one side of its variable. -/
def number (s : Single α) (side : Side) : Option α :=
  (s.bounds.get (side.scaled s.coefficient)).map fun b => (b - s.constant) / s.coefficient

/-- Every number implied is finite or the infinity that restricts nothing. -/
def Satisfiable (s : Single α) : Prop :=
  ∀ side : Side, ∀ x ∈ s.number side, side.isUnbounding x = true ∨ isFinite x = true

/-- The numbers that restrict the variable. -/
def implied (s : Single α) : Bounds α :=
  .ofSides fun side => (s.number side).filter (!side.isUnbounding ·)

theorem hasNaN_implied {s : Single α} (h : s.Satisfiable) : s.implied.hasNaN = false := by
  rw [Bounds.hasNaN_iff]
  intro side x hx
  rw [implied, Bounds.get_ofSides, Option.mem_filter_iff, Bool.not_eq_true'] at hx
  have hfinite := (h side x hx.1).resolve_left (by rw [hx.2]; exact Bool.false_ne_true)
  exact isNumber_of_finite hfinite

end Single

namespace Pass

/-- What a pass finds a constraint of a model to be. -/
def finding (p : Pass α) (m : Model α) (id : ConstraintId) : Except (FoldError α) (Finding α) :=
  match m.constraintAt id with
  | .error e => .error (.model e)
  | .ok c =>
    match p.reduce c.body m.fixedValue with
    | .error e => .error (.poly e)
    | .ok (.nonlinear degree) => .ok (.nonlinear degree)
    | .ok (.linear form) =>
      match form.singleTerm with
      | none => .ok (.nonSingle form.terms.length)
      | some (var, k) => .ok (.single ⟨id, var, k, form.constant, c.bounds⟩)

/-- The single that a pass finds, if it finds one. -/
def single? (p : Pass α) (m : Model α) (id : ConstraintId) : Option (Single α) :=
  (p.finding m id).toOption.bind Finding.single?

/-- A single can be folded, for want of a usable coefficient or because its
    numbers can be respected. -/
def Folds (p : Pass α) (s : Single α) : Prop :=
  p.isDegenerate s.coefficient = true ∨ s.Satisfiable

/-- The bounds that folding a single imposes on its variable. -/
def imposed (p : Pass α) (s : Single α) : Bounds α :=
  if p.isDegenerate s.coefficient then {} else s.implied

/-- A pass finds something at a constraint, and can fold it if it is a single. -/
def Accepts (p : Pass α) (m : Model α) (id : ConstraintId) : Prop :=
  ∃ f, p.finding m id = .ok f ∧ ∀ s, f = .single s → p.Folds s

/-- A usable coefficient is not zero. -/
theorem beq_zero_of_usable {p : Pass α} {k : α} (h : p.isDegenerate k = false) :
    (k == 0) = false := by
  rw [isDegenerate, Bool.or_eq_false_iff] at h
  exact h.1

theorem hasNaN_imposed {p : Pass α} {s : Single α} (h : p.Folds s) :
    (p.imposed s).hasNaN = false := by
  unfold imposed
  split
  · rfl
  · rename_i hdegenerate
    exact Single.hasNaN_implied (h.resolve_left hdegenerate)

/-- A single that is found names its constraint and has its bounds. -/
theorem finding_eq_single {p : Pass α} {m : Model α} {id : ConstraintId} {s : Single α}
    (h : p.finding m id = .ok (.single s)) :
    ∃ c form, m.constraintAt id = .ok c ∧ p.reduce c.body m.fixedValue = .ok (.linear form) ∧
      form.singleTerm = some (s.var, s.coefficient) ∧ s.constant = form.constant ∧
      s.bounds = c.bounds ∧ s.constraint = id := by
  unfold finding at h
  split at h
  · cases h
  · rename_i c hc
    split at h
    · cases h
    · cases h
    · rename_i form hform
      split at h
      · cases h
      · rename_i var k hterm
        cases h
        exact ⟨c, form, hc, hform, hterm, rfl, rfl, rfl⟩

theorem constraint_of_finding {p : Pass α} {m : Model α} {id : ConstraintId} {s : Single α}
    (h : p.finding m id = .ok (.single s)) : s.constraint = id := by
  rcases finding_eq_single h with ⟨_, _, _, _, _, _, _, hconstraint⟩
  exact hconstraint

/-- The constraint of a single that is found exists. -/
theorem exists_constraintAt_of_finding {p : Pass α} {m : Model α} {id : ConstraintId} {s : Single α}
    (h : p.finding m id = .ok (.single s)) : ∃ c, m.constraintAt s.constraint = .ok c := by
  rcases finding_eq_single h with ⟨c, _, hc, _, _, _, _, rfl⟩
  exact ⟨c, hc⟩

theorem single?_eq_some {p : Pass α} {m : Model α} {id : ConstraintId} {s : Single α} :
    p.single? m id = some s ↔ p.finding m id = .ok (.single s) := by
  rw [single?]
  cases p.finding m id with
  | error e => simp only [Except.toOption, Option.bind_none, reduceCtorEq]
  | ok f => rw [Except.ok.injEq, ← Finding.single?_eq_some]; rfl

end Pass

/-- What is known of a single that the standard reduction finds in a sound
    model. -/
structure Single.Proper (m : Model α) (s : Single α) : Prop where
  var_lt : s.var.index < m.vars.size
  free : m.fixedValue s.var = none
  coefficient : isFinite s.coefficient = true
  constant : isFinite s.constant = true
  bounds : s.bounds.hasNaN = false
  ordered : s.bounds.crossed = false

theorem Pass.proper_of_finding {p : Pass α} (hp : p.reduce = Poly.reduce) {m : Model α}
    (hm : m.Sound) {id : ConstraintId} {s : Single α} (h : p.finding m id = .ok (.single s)) :
    s.Proper m := by
  rcases finding_eq_single h with ⟨c, form, hc, hform, hterm, hconstant, hbounds, -⟩
  have hsound := hm.constraints _ c (Model.constraintAt_eq_ok.mp hc)
  have hterms := LinearForm.terms_of_singleTerm hterm
  rw [hp] at hform
  -- A variable that is left over occurs in the body and is not fixed.
  have hmention : form.Mentions s.var := by
    rw [LinearForm.Mentions, hterms]
    exact List.mem_singleton_self _
  rcases Poly.mentions_of_reduce hform hmention with ⟨hoccurs, hfree⟩
  have hfinite := (Poly.reduce_eq_linear hform).2.2
  rw [LinearForm.numbers, hterms, ← hconstant] at hfinite
  exact {
    var_lt := hsound.vars _ hoccurs
    free := hfree
    coefficient := hfinite _ (List.mem_cons_of_mem _ (List.mem_singleton_self _))
    constant := hfinite _ List.mem_cons_self
    bounds := hbounds ▸ hsound.bounds
    ordered := hbounds ▸ hsound.ordered }

theorem Pass.finding_rereads {m m' : Model α} (h : m'.Rereads m) (p : Pass α)
    (id : ConstraintId) : p.finding m' id = p.finding m id := by
  have hranged := h.ranged id.index
  -- The body and the bounds are the same, and only the switch may differ.
  rw [finding, finding, h.fixed]
  cases hc : m.constraints[id.index]? with
  | none =>
      rw [hc, Option.map_none, Option.map_eq_none_iff] at hranged
      rw [Model.constraintAt, Model.constraintAt, hc, hranged]
  | some c =>
      rw [hc, Option.map_some, Option.map_eq_some_iff] at hranged
      rcases hranged with ⟨c', hc', heq⟩
      rw [Model.constraintAt, Model.constraintAt, hc, hc']
      simp only [heq]

theorem Pass.accepts_rereads {m m' : Model α} (h : m'.Rereads m) (p : Pass α)
    (id : ConstraintId) : p.Accepts m' id ↔ p.Accepts m id := by
  rw [Pass.Accepts, Pass.Accepts, Pass.finding_rereads h]

end Presolve
