import Presolve.Proofs.Poly.Residue

/-!
# Classification

What the reduction makes of every polynomial, whatever numbers are in it. The answer is one
of four, and the order in which they are tried is part of it. A number that was written and
is not finite comes before everything. A product that is left comes next, and it hides what
fixed numbers may have overflowed to, since no linear form is built then. Only a form that
is built has its own numbers checked, the constant before the coefficients.

Each case says in full when it applies, in terms of the residues of the polynomial, so no
two of them overlap and none is missing.

## Main definitions

* `FirstNonFinite`: A number is the first of a list that is not finite.
* `Poly.Classified`: The answer that belongs to a polynomial.

## Theorems

* `firstNonFinite?_eq_some_iff`: The search finds the first such number.
* `Poly.max?_degrees_eq_some_iff`: The largest degree is that of a product left.
* `Poly.Classified.of_reduce`, `Poly.Classified.reduce_eq`: The two directions.
* `Poly.reduce_eq_iff`: The reduction gives the answer that belongs to a polynomial.
-/

namespace Presolve

open Scalar

variable {α : Type} [Scalar α]

/-- The number is in the list, it is not finite, and all before it are. -/
def FirstNonFinite (xs : List α) (x : α) : Prop :=
  isFinite x = false ∧ ∃ before after, xs = before ++ x :: after ∧ ∀ y ∈ before, isFinite y = true

theorem firstNonFinite?_eq_some_iff {xs : List α} {x : α} :
    firstNonFinite? xs = some x ↔ FirstNonFinite xs x := by
  simp only [firstNonFinite?, List.find?_eq_some_iff_append, Bool.not_eq_true', Bool.not_not,
    FirstNonFinite]

namespace Poly

/-- The answer that belongs to a polynomial when some variables are fixed. -/
inductive Classified (fixed : FixedValues α) (p : Poly α) :
    Except (PolyError α) (Reduced α) → Prop
  /-- A number that was written is not finite. -/
  | written {x : α} (first : FirstNonFinite p.coefficients x) :
      Classified fixed p (.error (.nonFinite x))
  /-- A product is left, and none of more unknowns. -/
  | product {d : Nat} (written : ∀ x ∈ p.coefficients, isFinite x = true)
      (greatest : IsGreatest {n | p.Leaves fixed n} d) (le_degree : d ≤ p.degree) :
      Classified fixed p (.ok (.nonlinear d))
  /-- No product is left, and the fixed numbers have overflowed. -/
  | overflowed {x : α} (written : ∀ x ∈ p.coefficients, isFinite x = true)
      (none_left : ∀ n, ¬ p.Leaves fixed n)
      (first : FirstNonFinite (p.residualForm fixed).numbers x) :
      Classified fixed p (.error (.nonFinite x))
  /-- No product is left, and all numbers are finite. -/
  | linear (written : ∀ x ∈ p.coefficients, isFinite x = true)
      (none_left : ∀ n, ¬ p.Leaves fixed n)
      (numbers : ∀ x ∈ (p.residualForm fixed).numbers, isFinite x = true) :
      Classified fixed p (.ok (.linear (p.residualForm fixed)))

variable {fixed : FixedValues α} {p : Poly α}

/-- The degree found is the largest number of unknowns of a product that is left. -/
theorem max?_degrees_eq_some_iff {d : Nat} :
    ((p.contributions fixed).filterMap Contribution.degree?).max? = some d
      ↔ IsGreatest {n | p.Leaves fixed n} d := by
  rw [List.max?_eq_some_iff]
  simp only [mem_degrees_iff]
  rfl

theorem max?_degrees_eq_none_iff :
    ((p.contributions fixed).filterMap Contribution.degree?).max? = none
      ↔ ∀ n, ¬ p.Leaves fixed n := by
  simp only [List.max?_eq_none_iff, List.eq_nil_iff_forall_not_mem, mem_degrees_iff]

/-- The answer that the reduction gives belongs to the polynomial. -/
theorem Classified.of_reduce {result : Except (PolyError α) (Reduced α)}
    (h : p.reduce fixed = result) : p.Classified fixed result := by
  rw [← h]
  simp only [reduce, ofContributions_contributions]
  -- The three checks are made one after the other.
  cases hwritten : firstNonFinite? p.coefficients with
  | some x => exact .written (firstNonFinite?_eq_some_iff.mp hwritten)
  | none =>
      have hfinite := firstNonFinite?_eq_none_iff.mp hwritten
      cases hdegree : ((p.contributions fixed).filterMap Contribution.degree?).max? with
      | some d =>
          have hgreatest := max?_degrees_eq_some_iff.mp hdegree
          exact .product hfinite hgreatest hgreatest.1.le_degree
      | none =>
          have hnone := max?_degrees_eq_none_iff.mp hdegree
          cases hnumbers : firstNonFinite? (p.residualForm fixed).numbers with
          | some x => exact .overflowed hfinite hnone (firstNonFinite?_eq_some_iff.mp hnumbers)
          | none => exact .linear hfinite hnone (firstNonFinite?_eq_none_iff.mp hnumbers)

/-- An answer that belongs to the polynomial is the one that the reduction gives. -/
theorem Classified.reduce_eq {result : Except (PolyError α) (Reduced α)}
    (h : p.Classified fixed result) : p.reduce fixed = result := by
  simp only [reduce, ofContributions_contributions]
  cases h with
  | written first => simp only [firstNonFinite?_eq_some_iff.mpr first]
  | product written greatest le_degree =>
      simp only [firstNonFinite?_eq_none_iff.mpr written, max?_degrees_eq_some_iff.mpr greatest]
  | overflowed written none_left first =>
      simp only [firstNonFinite?_eq_none_iff.mpr written,
        max?_degrees_eq_none_iff.mpr none_left, firstNonFinite?_eq_some_iff.mpr first]
  | linear written none_left numbers =>
      simp only [firstNonFinite?_eq_none_iff.mpr written,
        max?_degrees_eq_none_iff.mpr none_left, firstNonFinite?_eq_none_iff.mpr numbers]

/-- The reduction gives the one answer that belongs to a polynomial. -/
theorem reduce_eq_iff {result : Except (PolyError α) (Reduced α)} :
    p.reduce fixed = result ↔ p.Classified fixed result := by
  constructor
  · exact Classified.of_reduce
  · exact Classified.reduce_eq

/-- A fixed number overflows the constant, and a product of three factors, one of them fixed,
    leaves two unknowns. Another product of three factors vanishes. The overflow does not
    show, and the answer is the degree of what is left. -/
theorem reduce_eq_iff_hidden :
    ∃ (p : Poly Float) (fixed : FixedValues Float),
      p = ⟨1e308, [⟨#v[⟨0⟩], 1e308⟩],
        [⟨#v[⟨0⟩, ⟨1⟩], 1⟩], [⟨#v[⟨1⟩, ⟨0⟩, ⟨2⟩], 4⟩, ⟨#v[⟨1⟩, ⟨1⟩, ⟨1⟩], 0⟩]⟩ ∧
      (p.residualForm fixed).constant.isInf = true ∧
      p.reduce fixed = .ok (.nonlinear 2) ∧ p.Classified fixed (.ok (.nonlinear 2)) := by
  set p : Poly Float := ⟨1e308, [⟨#v[⟨0⟩], 1e308⟩],
    [⟨#v[⟨0⟩, ⟨1⟩], 1⟩], [⟨#v[⟨1⟩, ⟨0⟩, ⟨2⟩], 4⟩, ⟨#v[⟨1⟩, ⟨1⟩, ⟨1⟩], 0⟩]⟩
  set fixed : FixedValues Float := fun v => if v = ⟨0⟩ then some 10 else none
  have hread : (p.reduce fixed).toOption.map Reduced.degree? = some (some 2) := by
    decide +kernel
  have hreduce : p.reduce fixed = .ok (.nonlinear 2) := by
    rcases h : p.reduce fixed with e | form | degree <;> rw [h] at hread
    · cases hread
    · cases hread
    · cases hread
      rfl
  exact ⟨p, fixed, rfl, by decide +kernel, hreduce, reduce_eq_iff.mp hreduce⟩

end Poly

end Presolve
