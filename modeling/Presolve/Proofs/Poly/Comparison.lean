import Presolve.Proofs.Model.Change
import Presolve.Proofs.Poly.Product

/-!
# The Meaning of Comparisons

A polynomial is compared with a number, with two numbers at once or with another
polynomial, and each time the comparison is written as a body that is held between bounds.
What is written says of the value of the polynomial what the comparison says.

A number on the right stays there as a bound, and the body keeps its constant. A polynomial
on the right goes over to the left with all of its terms turned around, so that the difference
of the two values is compared with zero. Of each degree there is a list that has to go over,
and the constant too. That values are added and scaled is therefore stated for polynomials
with terms of every degree.

A constraint is a copy of what was written, so adding one to a model changes nothing about its
meaning. Nor does it find fault with the bounds. Those of a comparison are in order, as a
range with its ends the wrong way round was refused when it was written.

## Main definitions

* `Comparison`: The ways of comparing a polynomial.
* `Comparison.build`: The ranged polynomial that a comparison is written as.
* `Comparison.Holds`: What a comparison says of the value of the polynomial.

## Theorems

* `Poly.value_add`, `Poly.value_scale`, `Poly.value_sub`: Values of sums and multiples.
* `Poly.between_eq_ok`, `Poly.between_eq_error`: When a range is refused.
* `Comparison.build_eq_error_iff`: Only a range can be refused.
* `Comparison.holds_of_build`: What is written means what is compared.
* `Comparison.ordered_of_build`: The bounds written are in order.
* `Comparison.holds_stored`: The same for what a model stores.
-/

namespace Presolve

open Scalar

section Values

variable (x : Assignment ℚ)

theorem Monomial.value_scale {n : ℕ} (t : Monomial ℚ n) (k : ℚ) :
    (t.scale k).value x = t.value x * k := by
  rw [value_eq, value_eq]
  exact mul_right_comm _ _ _

namespace Poly

variable (p q : Poly ℚ)

theorem value_add : (p + q).value x = p.value x + q.value x := by
  change (p.add q).value x = _
  simp only [value_eq_totals, add, List.map_append, List.sum_append]
  ring

theorem value_scale (k : ℚ) : (p.scale k).value x = p.value x * k := by
  have hlist {n : ℕ} (ts : List (Monomial ℚ n)) :
      ((ts.map (·.scale k)).map (·.value x)).sum = (ts.map (·.value x)).sum * k := by
    rw [List.map_map, ← List.sum_map_mul_right]
    exact congrArg List.sum (List.map_congr_left fun t _ => t.value_scale x k)
  simp only [value_eq_totals, scale, hlist]
  ring

theorem value_sub : (p - q).value x = p.value x - q.value x := by
  change (p + q.scale (-1)).value x = _
  rw [value_add, value_scale]
  ring

end Poly

end Values

/-- No rational number is infinite, so no bound is left out. -/
theorem Bounds.dropInfinite_rat (b : Bounds ℚ) : b.dropInfinite = b := by
  rcases b with ⟨_ | lower, _ | upper⟩ <;> rfl

theorem Ranged.holds_ofBounds (x : Assignment ℚ) (p : Poly ℚ) (b : Bounds ℚ) :
    (Ranged.ofBounds p b).Holds x ↔ b.Contains (p.value x) := by
  rw [Holds, ofBounds, Bounds.dropInfinite_rat]

namespace Poly

variable (x : Assignment ℚ) (p : Poly ℚ) (c : ℚ)

theorem holds_atMost : (p.atMost c).Holds x ↔ p.value x ≤ c := by
  rw [atMost, Ranged.holds_ofBounds]
  simp [Bounds.Contains]

theorem holds_atLeast : (p.atLeast c).Holds x ↔ c ≤ p.value x := by
  rw [atLeast, Ranged.holds_ofBounds]
  simp [Bounds.Contains]

theorem holds_exactly : (p.exactly c).Holds x ↔ p.value x = c := by
  rw [exactly, Ranged.holds_ofBounds, le_antisymm_iff, and_comm]
  simp [Bounds.Contains]

end Poly

section Range

variable {α : Type} [Scalar α] {p : Poly α} {lower upper : α}

theorem Poly.between_eq_ok {r : Ranged α} : p.between lower upper = .ok r ↔
    ¬ upper < lower ∧ r = .ofBounds p ⟨some lower, some upper⟩ := by
  rw [between]
  by_cases hcrossed : upper < lower
  · rw [if_pos hcrossed, iff_false_right fun h => h.1 hcrossed]
    simp only [reduceCtorEq, not_false_eq_true]
  · rw [if_neg hcrossed, Except.ok.injEq, eq_comm, and_iff_right hcrossed]

theorem Poly.between_eq_error {e : PolyError α} : p.between lower upper = .error e ↔
    upper < lower ∧ e = .invalidRange lower upper := by
  rw [between]
  by_cases hcrossed : upper < lower
  · rw [if_pos hcrossed, Except.error.injEq, eq_comm, and_iff_right hcrossed]
  · rw [if_neg hcrossed, iff_false_right fun h => hcrossed h.1]
    simp only [reduceCtorEq, not_false_eq_true]

end Range

/-- The ways of comparing a polynomial. -/
inductive Comparison (α : Type) where
  /-- It is at most a number. -/
  | atMost (c : α)
  /-- It is at least a number. -/
  | atLeast (c : α)
  /-- It is equal to a number. -/
  | exactly (c : α)
  /-- It lies in a range. -/
  | between (lower upper : α)
  /-- It is at most another polynomial. -/
  | le (q : Poly α)
  /-- It is at least another polynomial. -/
  | ge (q : Poly α)
  /-- It is equal to another polynomial. -/
  | equal (q : Poly α)

/-- The constraint that is stored is a copy, and its id finds it. -/
theorem Model.constraint_of_addConstraintTo {α : Type} [Scalar α] {m m' : Model α} {block : BlockId}
    {r : Ranged α} {id : ConstraintId} (h : m.addConstraintTo block r = .ok (id, m')) :
    m'.constraints = m.constraints.push { r with } ∧
      (m.constraints.size < UInt32.size → m'.constraintAt id = .ok { r with }) := by
  rcases addConstraintTo_eq_ok.mp h with ⟨-, -, -, -, hstored⟩
  cases hstored
  refine ⟨rfl, fun hsize => ?_⟩
  have hlast : (m.constraints.push { r with })[m.constraints.size]? = some { r with } :=
    Array.getElem?_push_size
  rwa [constraintAt_eq_ok, Id.index_ofIndex hsize]

namespace Comparison

section Building

variable {α : Type} [Scalar α] {compare : Comparison α} {p : Poly α}

/-- What a comparison of `p` is written as. -/
def build (p : Poly α) : Comparison α → Except (PolyError α) (Ranged α)
  | atMost c => .ok (p.atMost c)
  | atLeast c => .ok (p.atLeast c)
  | exactly c => .ok (p.exactly c)
  | between lower upper => p.between lower upper
  | le q => .ok (p.le q)
  | ge q => .ok (p.ge q)
  | equal q => .ok (p.equal q)

/-- What a comparison says of the value `y` of the polynomial compared. -/
def Holds (x : Assignment α) (y : α) : Comparison α → Prop
  | atMost c => y ≤ c
  | atLeast c => c ≤ y
  | exactly c => y = c
  | between lower upper => lower ≤ y ∧ y ≤ upper
  | le q => y ≤ q.value x
  | ge q => q.value x ≤ y
  | equal q => y = q.value x

/-- Only a range can be refused, and it is if its ends are in the wrong order. -/
theorem build_eq_error_iff {e : PolyError α} : compare.build p = .error e ↔
    ∃ lower upper, compare = between lower upper ∧ upper < lower ∧ e = .invalidRange lower upper := by
  cases compare with
  | between lower upper =>
      rw [build, Poly.between_eq_error]
      constructor
      · rintro ⟨hcrossed, rfl⟩
        exact ⟨lower, upper, rfl, hcrossed, rfl⟩
      · rintro ⟨_, _, hrange, hcrossed, rfl⟩
        cases hrange
        exact ⟨hcrossed, rfl⟩
  | _ =>
      constructor
      · intro h
        cases h
      · rintro ⟨_, _, hrange, -⟩
        cases hrange

end Building

variable {compare : Comparison ℚ} {p : Poly ℚ} {r : Ranged ℚ}

/-- What a comparison is written as holds if and only if the comparison does. -/
theorem holds_of_build (h : compare.build p = .ok r) (x : Assignment ℚ) :
    r.Holds x ↔ compare.Holds x (p.value x) := by
  cases compare with
  | atMost c =>
      cases h
      exact p.holds_atMost x c
  | atLeast c =>
      cases h
      exact p.holds_atLeast x c
  | exactly c =>
      cases h
      exact p.holds_exactly x c
  | between lower upper =>
      rcases Poly.between_eq_ok.mp h with ⟨-, rfl⟩
      rw [Ranged.holds_ofBounds]
      simp [Bounds.Contains, Holds]
  -- The difference of the values is compared with zero.
  | le q =>
      cases h
      rw [Poly.le, Poly.holds_atMost, Poly.value_sub]
      exact sub_nonpos
  | ge q =>
      cases h
      rw [Poly.ge, Poly.holds_atLeast, Poly.value_sub]
      exact sub_nonneg
  | equal q =>
      cases h
      rw [Poly.equal, Poly.holds_exactly, Poly.value_sub]
      exact sub_eq_zero

/-- The bounds that a comparison is written with are in order. -/
theorem ordered_of_build (h : compare.build p = .ok r) :
    r.bounds.hasNaN = false ∧ r.bounds.crossed = false := by
  have hnumber : r.bounds.hasNaN = false := by rcases r.bounds with ⟨_ | _, _ | _⟩ <;> rfl
  refine ⟨hnumber, ?_⟩
  cases compare with
  | between lower upper =>
      rcases Poly.between_eq_ok.mp h with ⟨hordered, rfl⟩
      exact decide_eq_false hordered
  | exactly c =>
      cases h
      exact decide_eq_false (lt_irrefl c)
  | equal q =>
      cases h
      exact decide_eq_false (lt_irrefl 0)
  | _ =>
      cases h
      rfl

/-- A comparison can be stored in every block that exists, if its variables do. -/
theorem exists_addConstraintTo_iff (h : compare.build p = .ok r) (m : Model ℚ) (block : BlockId) :
    (∃ stored, m.addConstraintTo block r = .ok stored) ↔
      (∃ b, m.blockAt block = .ok b) ∧ ∀ v ∈ r.body.vars, v.index < m.vars.size := by
  rcases ordered_of_build h with ⟨hnumber, hordered⟩
  simp only [Model.addConstraintTo_eq_ok, Poly.vars, List.mem_eraseDups]
  constructor
  · rintro ⟨stored, hblock, -, -, hvars, -⟩
    exact ⟨hblock, hvars⟩
  · rintro ⟨hblock, hvars⟩
    exact ⟨_, hblock, hnumber, hordered, hvars, rfl⟩

/-- A comparison is refused if and only if it is a range with its ends in the wrong order. What it
    is written as otherwise holds under an assignment if and only if the comparison is true of the
    values. It can be added to a block of a model that has its variables, and the constraint
    that is stored means the same. -/
theorem holds_stored (compare : Comparison ℚ) (p : Poly ℚ) :
    ((∃ e, compare.build p = .error e) ↔
      ∃ lower upper, compare = between lower upper ∧ upper < lower) ∧
    ∀ r, compare.build p = .ok r →
      (∀ x, r.Holds x ↔ compare.Holds x (p.value x)) ∧
      ∀ (m : Model ℚ) (block : BlockId),
        ((∃ stored, m.addConstraintTo block r = .ok stored) ↔
          (∃ b, m.blockAt block = .ok b) ∧ ∀ v ∈ r.body.vars, v.index < m.vars.size) ∧
        ∀ id m', m.addConstraintTo block r = .ok (id, m') →
          ∃ c, m'.constraints = m.constraints.push c ∧
            (m.constraints.size < UInt32.size → m'.constraintAt id = .ok c) ∧
            ∀ x, c.toRanged.Holds x ↔ compare.Holds x (p.value x) := by
  constructor
  · simp only [build_eq_error_iff]
    constructor
    · rintro ⟨e, lower, upper, hrange, hcrossed, -⟩
      exact ⟨lower, upper, hrange, hcrossed⟩
    · rintro ⟨lower, upper, hrange, hcrossed⟩
      exact ⟨_, lower, upper, hrange, hcrossed, rfl⟩
  · intro r hr
    refine ⟨holds_of_build hr, fun m block => ⟨exists_addConstraintTo_iff hr m block, ?_⟩⟩
    intro id m' hstored
    rcases Model.constraint_of_addConstraintTo hstored with ⟨hpush, hfound⟩
    exact ⟨_, hpush, hfound, holds_of_build hr⟩

/-- The polynomials have terms of every degree and the model has their variables. At one assignment
    the first is less than the second, at another one it is greater. A range whose ends
    are in the wrong order is refused. -/
theorem holds_stored_mixed :
    ∃ (p q : Poly ℚ) (r : Ranged ℚ) (m m' : Model ℚ) (id : ConstraintId) (c : Constraint ℚ),
      p = ⟨3, [⟨#v[⟨0⟩], 1⟩], [⟨#v[⟨0⟩, ⟨1⟩], 1⟩], [⟨#v[⟨0⟩, ⟨0⟩, ⟨1⟩], 1⟩]⟩ ∧
      q = ⟨7, [⟨#v[⟨1⟩], 2⟩], [⟨#v[⟨1⟩, ⟨0⟩], 1⟩], [⟨#v[⟨1⟩, ⟨1⟩, ⟨0⟩], 1⟩]⟩ ∧
      (le q).build p = .ok r ∧
      m = Model.empty.after [.addVariable {}, .addVariable {}] ∧
      m.addConstraintTo rootBlock r = .ok (id, m') ∧ m'.constraintAt id = .ok c ∧
      (∀ x, c.toRanged.Holds x ↔ p.value x ≤ q.value x) ∧
      c.toRanged.Holds (fun v => if v = ⟨0⟩ then 2 else 1) ∧
      ¬ c.toRanged.Holds (fun v => if v = ⟨0⟩ then 3 else 1) ∧
      (∃ e, (between 2 1).build p = .error e) := by
  set p : Poly ℚ := ⟨3, [⟨#v[⟨0⟩], 1⟩], [⟨#v[⟨0⟩, ⟨1⟩], 1⟩], [⟨#v[⟨0⟩, ⟨0⟩, ⟨1⟩], 1⟩]⟩
  set q : Poly ℚ := ⟨7, [⟨#v[⟨1⟩], 2⟩], [⟨#v[⟨1⟩, ⟨0⟩], 1⟩], [⟨#v[⟨1⟩, ⟨1⟩, ⟨0⟩], 1⟩]⟩
  set m : Model ℚ := Model.empty.after [.addVariable {}, .addVariable {}]
  have hempty : m.constraints.size < UInt32.size := by decide +kernel
  rcases (holds_stored (le q) p).2 _ rfl with ⟨-, hstored⟩
  rcases hstored m rootBlock with ⟨haccepted, hmeaning⟩
  obtain ⟨⟨id, m'⟩, hadded⟩ := haccepted.mpr ⟨⟨_, rfl⟩, by decide +kernel⟩
  rcases hmeaning id m' hadded with ⟨c, -, hfound, hholds⟩
  have hcrossed := (holds_stored (between 2 1) p).1.mpr ⟨2, 1, rfl, by decide +kernel⟩
  refine ⟨p, q, _, m, m', id, c, rfl, rfl, rfl, rfl, hadded, hfound hempty, hholds, ?_, ?_, hcrossed⟩
  · rw [hholds, Holds]
    decide +kernel
  · rw [hholds, Holds]
    decide +kernel

end Comparison

end Presolve
