import Presolve.Proofs.Poly.Classification
import Presolve.Proofs.Scalar.Absorption

/-!
# Fixing More Variables

What becomes of a reduction when further variables are fixed. A term then has fewer unknowns,
so what was linear should not become a product. This is not plain, since a product is left
out if its folded coefficient is zero, and folding in more numbers changes coefficients. The
numbers are multiplied in the order of the factors, so with a large number in between a
product may survive that had come to zero before.

It cannot survive as a product of unknowns. A term has three factors at most, and if two of
them are unknown then one at most is fixed. Either that one was fixed before, and the folded
coefficient is what it was, or none was, and the written coefficient was multiplied with a
finite number. A product that is not zero then did not start from zero.

## Main definitions

* `FixedValues.Extends`: Further variables are fixed, at finite numbers.

## Theorems

* `FixedValues.Extends.filterMap_sublist`: The fixed numbers of some factors are kept.
* `FixedValues.Extends.filterMap_eq_or`: With one at most, they are the same or there were
  none.
* `Monomial.folded_of_extends`: A product of unknowns that is left was there before.
* `Poly.Leaves.of_extends`: The same for a polynomial.
* `Poly.reduce_of_extends`: The two reductions compared.
-/

namespace Presolve

open Scalar

variable {α : Type} [Scalar α]

/-- Some fixed numbers are kept, and the variables that are fixed in addition are fixed at
    finite numbers. -/
structure FixedValues.Extends (fixed' fixed : FixedValues α) : Prop where
  keeps : ∀ v a, fixed v = some a → fixed' v = some a
  finite : ∀ v a, fixed v = .none → fixed' v = some a → isFinite a = true

namespace FixedValues.Extends

variable {fixed fixed' : FixedValues α}

theorem eq_none (h : fixed'.Extends fixed) {v : VariableId} (hv : fixed' v = .none) :
    fixed v = .none := by
  cases hfixed : fixed v with
  | none => rfl
  | some a =>
      rw [h.keeps v a hfixed] at hv
      cases hv

/-- The numbers at which some variables were fixed are still among theirs, in their order. -/
theorem filterMap_sublist (h : fixed'.Extends fixed) (vs : List VariableId) :
    (vs.filterMap fixed).Sublist (vs.filterMap fixed') := by
  induction vs with
  | nil => exact .slnil
  | cons v rest ih =>
      cases hfixed : fixed v with
      | some a =>
          -- What was fixed is fixed at the same number.
          rw [List.filterMap_cons_some hfixed, List.filterMap_cons_some (h.keeps v a hfixed)]
          exact ih.cons_cons a
      | none =>
          rw [List.filterMap_cons_none hfixed]
          cases hfixed' : fixed' v with
          | none => rwa [List.filterMap_cons_none hfixed']
          | some a =>
              rw [List.filterMap_cons_some hfixed']
              exact ih.cons a

/-- If one of some variables is fixed at most, it was fixed before, or none was and it is fixed
    at a finite number. -/
theorem filterMap_eq_or (h : fixed'.Extends fixed) (vs : List VariableId)
    (hlength : (vs.filterMap fixed').length ≤ 1) :
    vs.filterMap fixed = vs.filterMap fixed' ∨
      ∃ a, isFinite a = true ∧ vs.filterMap fixed = [] ∧ vs.filterMap fixed' = [a] := by
  rcases hbefore : vs.filterMap fixed with _ | ⟨a, as⟩
  · rcases hafter : vs.filterMap fixed' with _ | ⟨b, bs⟩
    · exact Or.inl rfl
    · -- The variable that is fixed now was an unknown.
      rw [hafter, List.length_cons, Nat.succ_le_succ_iff, Nat.le_zero, List.length_eq_zero_iff]
        at hlength
      have hb : b ∈ vs.filterMap fixed' := hafter ▸ List.mem_cons_self
      rcases List.mem_filterMap.mp hb with ⟨v, hv, hfixed'⟩
      have hfree : fixed v = .none := List.filterMap_eq_nil_iff.mp hbefore v hv
      exact Or.inr ⟨b, h.finite v b hfree hfixed', rfl, by rw [hlength]⟩
  · -- One number was there already, and there is no room for another.
    refine Or.inl ?_
    rw [← hbefore]
    refine (h.filterMap_sublist vs).eq_of_length_le (hlength.trans ?_)
    rw [hbefore, List.length_cons]
    exact Nat.le_add_left 1 _

end FixedValues.Extends

namespace Monomial

variable {fixed fixed' : FixedValues α} {n : Nat} {t : Monomial α n}

omit [Scalar α] in
/-- Every factor is fixed or an unknown. -/
theorem length_fixed_add_unknowns (fixed : FixedValues α) (t : Monomial α n) :
    (t.factors.toList.filterMap fixed).length + (t.unknowns fixed).length = n := by
  have hsplit (vs : List VariableId) : (vs.filterMap fixed).length
      + (vs.filter fun v => (fixed v).isNone).length = vs.length := by
    induction vs with
    | nil => rfl
    | cons v rest ih =>
        cases hv : fixed v with
        | none =>
            simp [hv]
            omega
        | some a =>
            simp [hv]
            omega
  have hfactors := hsplit t.factors.toList
  rwa [Vector.length_toList] at hfactors

/-- Fixing more variables leaves fewer unknowns. -/
theorem length_unknowns_of_extends (h : fixed'.Extends fixed) (t : Monomial α n) :
    (t.unknowns fixed').length ≤ (t.unknowns fixed).length := by
  refine (List.monotone_filter_right t.factors.toList fun v hv => ?_).length_le
  rw [Option.isNone_iff_eq_none] at hv ⊢
  exact h.eq_none hv

/-- A term with all but one of its factors unknown did not vanish before if it does not
    vanish now. -/
theorem folded_of_extends [AnnihilatingScalar α] (h : fixed'.Extends fixed)
    (hunknowns : n ≤ (t.unknowns fixed').length + 1) (hleft : (t.folded fixed' == 0) = false) :
    (t.folded fixed == 0) = false := by
  -- With all but one of the factors unknown, one at most is fixed.
  have hsplit := t.length_fixed_add_unknowns fixed'
  rw [folded] at hleft ⊢
  rcases h.filterMap_eq_or t.factors.toList (by omega) with hsame | ⟨a, ha, hnone, hone⟩
  · rwa [hsame]
  · -- The written coefficient is what `a` was multiplied with.
    rw [hone, List.foldl_cons, List.foldl_nil] at hleft
    rw [hnone, List.foldl_nil, Bool.eq_false_iff]
    intro hzero
    rw [AnnihilatingScalar.beq_zero_mul hzero ha] at hleft
    cases hleft

end Monomial

namespace Poly

variable [AnnihilatingScalar α] {fixed fixed' : FixedValues α} {p : Poly α}

/-- A product of unknowns that is left was left before, with as many unknowns or more. -/
theorem Leaves.of_extends (h : fixed'.Extends fixed) {n : Nat} (hn : p.Leaves fixed' n) :
    ∃ k, n ≤ k ∧ p.Leaves fixed k := by
  rcases hn with ⟨htwo, d, t, ht, hleft, rfl⟩
  have hfewer := t.length_unknowns_of_extends h
  -- There are no terms of a degree above three, so two unknowns are all factors but one.
  have hdegree : d ≤ 3 := by
    by_contra hlt
    obtain ⟨k, rfl⟩ : ∃ k, d = k + 4 := ⟨d - 4, by omega⟩
    cases ht
  exact ⟨_, hfewer, htwo.trans hfewer, d, t, ht, t.folded_of_extends h (by omega) hleft, rfl⟩

/-- Fixing more variables does not make a polynomial more nonlinear. One that was linear does
    not become a product, and of two products the later one has no higher degree. -/
theorem reduce_of_extends (h : fixed'.Extends fixed) :
    (∀ form, p.reduce fixed = .ok (.linear form) →
      (∃ form', p.reduce fixed' = .ok (.linear form')) ∨
        ∃ x, p.reduce fixed' = .error (.nonFinite x)) ∧
      ∀ d d', p.reduce fixed = .ok (.nonlinear d) → p.reduce fixed' = .ok (.nonlinear d') →
        d' ≤ d := by
  constructor
  · intro form hbefore
    cases hafter : p.reduce fixed' with
    | error e =>
        cases Classified.of_reduce hafter with
        | written first => exact Or.inr ⟨_, rfl⟩
        | overflowed written none_left first => exact Or.inr ⟨_, rfl⟩
    | ok reduced =>
        cases Classified.of_reduce hafter with
        | linear written none_left numbers => exact Or.inl ⟨_, rfl⟩
        | product written greatest le_degree =>
            -- A product that is left now was left before, when none was.
            cases Classified.of_reduce hbefore with
            | linear written none_left numbers =>
                rcases greatest.1.of_extends h with ⟨k, -, hk⟩
                exact absurd hk (none_left k)
  · intro d d' hbefore hafter
    cases Classified.of_reduce hbefore with
    | product written greatest le_degree =>
        cases Classified.of_reduce hafter with
        | product written' greatest' le_degree' =>
            rcases greatest'.1.of_extends h with ⟨k, hle, hk⟩
            exact hle.trans (greatest.2 hk)

/-- A product of three factors vanishes by underflow while the second one is fixed, and is left
    with a coefficient once the first one is fixed as well. It is linear both times. Another
    product has three unknowns, then two. -/
theorem reduce_of_extends_underflow :
    ∃ (p q : Poly Float) (fixed fixed' : FixedValues Float),
      p = ⟨0, [], [], [⟨#v[⟨1⟩, ⟨0⟩, ⟨2⟩], 1e-200⟩]⟩ ∧
      q = ⟨0, [], [], [⟨#v[⟨2⟩, ⟨1⟩, ⟨3⟩], 1⟩]⟩ ∧
      (p.residues fixed).length = 0 ∧ (p.residues fixed').length = 1 ∧
      fixed'.Extends fixed ∧ (∃ form, p.reduce fixed = .ok (.linear form)) ∧
      ((∃ form', p.reduce fixed' = .ok (.linear form')) ∨
        ∃ x, p.reduce fixed' = .error (.nonFinite x)) ∧
      q.reduce fixed = .ok (.nonlinear 3) ∧ q.reduce fixed' = .ok (.nonlinear 2) ∧ 2 ≤ 3 := by
  set p : Poly Float := ⟨0, [], [], [⟨#v[⟨1⟩, ⟨0⟩, ⟨2⟩], 1e-200⟩]⟩
  set q : Poly Float := ⟨0, [], [], [⟨#v[⟨2⟩, ⟨1⟩, ⟨3⟩], 1⟩]⟩
  set fixed : FixedValues Float := fun v => if v = ⟨0⟩ then some 1e-200 else none
  set fixed' : FixedValues Float := fun v =>
    if v = ⟨0⟩ then some 1e-200 else if v = ⟨1⟩ then some 1e300 else none
  have hextends : fixed'.Extends fixed := by
    constructor
    · intro v a hv
      by_cases hzero : v = ⟨0⟩
      · simpa [fixed, fixed', hzero] using hv
      · simp [fixed, hzero] at hv
    · intro v a hv hv'
      by_cases hzero : v = ⟨0⟩
      · simp [fixed, hzero] at hv
      · by_cases hone : v = ⟨1⟩
        · have ha : a = 1e300 := by simpa [fixed', hzero, hone] using hv'.symm
          rw [ha]
          decide +kernel
        · simp [fixed', hzero, hone] at hv'
  have hform : ∃ form, p.reduce fixed = .ok (.linear form) := by
    have hread : (p.reduce fixed).toOption.map Reduced.degree? = some none := by decide +kernel
    rcases h : p.reduce fixed with e | form | degree <;> rw [h] at hread
    · cases hread
    · exact ⟨form, rfl⟩
    · cases hread
  have hproduct (f : FixedValues Float) (n : Nat)
      (hread : (q.reduce f).toOption.map Reduced.degree? = some (some n)) :
      q.reduce f = .ok (.nonlinear n) := by
    rcases h : q.reduce f with e | form | degree <;> rw [h] at hread
    · cases hread
    · cases hread
    · cases hread
      rfl
  have hthree := hproduct fixed 3 (by decide +kernel)
  have htwo := hproduct fixed' 2 (by decide +kernel)
  rcases hform with ⟨form, hlinear⟩
  exact ⟨p, q, fixed, fixed', rfl, rfl, by decide +kernel, by decide +kernel, hextends,
    ⟨form, hlinear⟩, (reduce_of_extends hextends).1 form hlinear, hthree, htwo,
    (reduce_of_extends hextends).2 3 2 hthree htwo⟩

end Poly

end Presolve
