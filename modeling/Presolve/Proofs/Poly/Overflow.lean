import Presolve.Proofs.Poly.Classification
import Presolve.Proofs.Scalar.Absorption

/-!
# Overflow

Fixed numbers can be infinite, and finite ones can overflow once they are multiplied and
added. The reduction looks at no number on the way. It checks the numbers of the linear form
when it has them all, and in between it even drops products whose folded coefficient is
zero. This is enough, as a number that is not finite is never equal to zero, so a term that
came to one is not dropped, and it is never made finite again by what it is added to.

So from the last check all others follow. The folded coefficient of a term with at most one
unknown is part of a sum that was checked, and a term with more unknowns vanished, or there
would be no linear form.

## Main definitions

* `Poly.ComesTo`: A number comes up while a polynomial is reduced.
* `Poly.Overflows`: One that comes up is not finite, or one that is fixed.

## Theorems

* `Poly.finite_folded`: The folded coefficients of a polynomial with a linear form.
* `Poly.finite_of_comesTo`: All numbers that come up on the way to it.
* `Poly.reduce_ne_linear`: What overflows has no linear form.
-/

namespace Presolve

open Scalar

variable {α : Type} [Scalar α]

namespace Poly

/-- The number comes up while the polynomial is reduced. -/
inductive ComesTo (fixed : FixedValues α) (p : Poly α) (x : α) : Prop
  /-- The written coefficient of a term was multiplied with some of its fixed factors. -/
  | product {d : Nat} (t : Monomial α d) (term : t ∈ p.part d)
      (intermediate : Intermediate (· * ·) t.coefficient (t.factors.toList.filterMap fixed) x)
  /-- Some of the numbers without unknowns were added to the written constant. -/
  | constant (intermediate : Intermediate (· + ·) p.constant (p.multiples fixed []) x)
  /-- Some of the multiples of one unknown were added. -/
  | coefficient (v : VariableId) (k : α) (ks : List α) (multiples : p.multiples fixed [v] = k :: ks)
      (intermediate : Intermediate (· + ·) k ks x)

/-- A variable that occurs is fixed at a number that is not finite, or such a number comes
    up while the polynomial is reduced. -/
def Overflows (fixed : FixedValues α) (p : Poly α) : Prop :=
  (∃ v ∈ p.vars, ∃ a, fixed v = some a ∧ isFinite a = false) ∨
    ∃ x, p.ComesTo fixed x ∧ isFinite x = false

variable {fixed : FixedValues α} {p : Poly α} {form : LinearForm α}

theorem finite_constant (h : p.reduce fixed = .ok (.linear form)) :
    isFinite ((p.multiples fixed []).foldl (· + ·) p.constant) = true := by
  cases Classified.of_reduce h with
  | linear written none_left numbers => exact numbers _ List.mem_cons_self

theorem finite_coefficient (h : p.reduce fixed = .ok (.linear form)) {v : VariableId} {k : α}
    {ks : List α} (hks : p.multiples fixed [v] = k :: ks) :
    isFinite (ks.foldl (· + ·) k) = true := by
  cases Classified.of_reduce h with
  | linear written none_left numbers =>
      have hk : k ∈ p.multiples fixed [v] := hks ▸ List.mem_cons_self
      have hv : v ∈ p.loneUnknowns fixed := mem_loneUnknowns.mpr ⟨k, mem_multiples.mp hk⟩
      have hterm : (v, total (p.multiples fixed [v])) ∈ (p.residualForm fixed).terms :=
        List.mem_map_of_mem hv
      rw [hks] at hterm
      exact numbers _ (List.mem_cons_of_mem _ (List.mem_map_of_mem hterm))

variable [AbsorbingScalar α]

/-- What is left of the terms of a polynomial with a linear form is finite. -/
theorem finite_of_mem_residues (h : p.reduce fixed = .ok (.linear form))
    {r : α × List VariableId} (hr : r ∈ p.residues fixed) : isFinite r.1 = true := by
  rcases r with ⟨k, _ | ⟨v, _ | ⟨w, vs⟩⟩⟩
  · exact (finite_of_foldl AbsorbingScalar.finite_of_add (finite_constant h)).2 k
      (mem_multiples.mpr hr)
  · have hk := mem_multiples.mpr hr
    rcases hks : p.multiples fixed [v] with _ | ⟨k', ks⟩
    · rw [hks] at hk
      cases hk
    · rw [hks] at hk
      rcases finite_of_foldl AbsorbingScalar.finite_of_add (finite_coefficient h hks) with
        ⟨hfirst, hrest⟩
      rcases List.mem_cons.mp hk with rfl | hk
      · exact hfirst
      · exact hrest k hk
  · -- A product is left, so there is no linear form.
    cases Classified.of_reduce h with
    | linear written none_left numbers =>
        refine absurd (mem_degrees_iff.mp ?_) (none_left (vs.length + 2))
        rw [contributions_eq, List.filterMap_map]
        exact List.mem_filterMap.mpr ⟨_, hr, rfl⟩

variable [OrderedScalar α]

/-- The folded coefficients of a polynomial with a linear form are finite, be they part of
    the form or not. -/
theorem finite_folded (h : p.reduce fixed = .ok (.linear form)) {d : Nat} {t : Monomial α d}
    (ht : t ∈ p.part d) : isFinite (t.folded fixed) = true := by
  rcases Nat.eq_zero_or_pos d with rfl | hd
  · -- The constant is what the sum of the numbers starts with.
    simp only [part] at ht
    split at ht
    · cases ht
    · rw [List.mem_singleton.mp ht]
      exact (finite_of_foldl AbsorbingScalar.finite_of_add (finite_constant h)).1
  · by_cases hcounts : d = 1 ∨ (t.folded fixed == 0) = false
    · exact finite_of_mem_residues h (mem_residues.mpr ⟨d, hd, t, ht, rfl, hcounts⟩)
    · -- A product that was dropped is equal to zero.
      rw [not_or, Bool.not_eq_false] at hcounts
      rw [OrderedScalar.isFinite_congr hcounts.2, OrderedScalar.zero_finite]

/-- On the way to a linear form no number comes up that is not finite. -/
theorem finite_of_comesTo (h : p.reduce fixed = .ok (.linear form)) {x : α}
    (hx : p.ComesTo fixed x) : isFinite x = true := by
  cases hx with
  | product t term intermediate =>
      exact intermediate.finite AbsorbingScalar.finite_of_mul (finite_folded h term)
  | constant intermediate =>
      exact intermediate.finite AbsorbingScalar.finite_of_add (finite_constant h)
  | coefficient v k ks multiples intermediate =>
      exact intermediate.finite AbsorbingScalar.finite_of_add (finite_coefficient h multiples)

/-- A polynomial with a linear form refers to no variable fixed at a number that is not
    finite, not even with a coefficient of zero. -/
theorem finite_of_fixed (h : p.reduce fixed = .ok (.linear form)) {v : VariableId}
    (hv : v ∈ p.vars) {a : α} (ha : fixed v = some a) : isFinite a = true := by
  rcases mem_vars_iff.mp hv with ⟨d, t, ht, hfactor⟩
  have hfactors := (finite_of_foldl AbsorbingScalar.finite_of_mul (finite_folded h ht)).2
  exact hfactors a (List.mem_filterMap.mpr ⟨v, hfactor, ha⟩)

/-- What overflows has no linear form. -/
theorem reduce_ne_linear (hp : p.Overflows fixed) (form : LinearForm α) :
    p.reduce fixed ≠ .ok (.linear form) := by
  intro h
  rcases hp with ⟨v, hv, a, ha, hnot⟩ | ⟨x, hx, hnot⟩
  · rw [finite_of_fixed h hv ha] at hnot
    cases hnot
  · rw [finite_of_comesTo h hx] at hnot
    cases hnot

end Poly

end Presolve
