import Mathlib.Algebra.BigOperators.NatAntidiagonal
import Presolve.Proofs.Poly.Product

/-!
# Degree and Variables of a Product

What can be said of a product without looking at a coefficient. Each monomial of the one
polynomial meets each monomial of the other one, and nothing that comes of it is dropped or
merged, whatever the coefficients multiply to. So the degree of a product is the sum of the
degrees, its variables are those of both, and its terms can be counted in advance.

There is one exception, and it is a polynomial without monomials. That is a constant that is
zero and nothing else. It meets nothing, and takes the variables of the other polynomial with
it. A zero constant next to a term only takes itself out, as there is still a monomial left to
meet those of the other side.

## Main definitions

* `Poly.IsZero`: There are no terms, and the constant is zero.
* `Poly.termCount`: How many terms there are of each degree, a constant that is not zero being one.

## Theorems

* `Poly.mem_monomials_mul_iff`: The terms of a product are products of monomials.
* `Poly.degree_mul`, `Poly.mem_vars_mul`: Its degree and its variables.
* `Poly.mul_eq_zero`: The product with a zero.
* `Poly.termCount_mul`: Its terms are counted by convolution.
* `Poly.support_mul`: All of this, for polynomials that can be multiplied.
-/

namespace Presolve

variable {α : Type}

namespace AnyMonomial

theorem mem_ofDegree {d : ℕ} {t : Monomial α d} {ts : List (AnyMonomial α)} :
    t ∈ ofDegree d ts ↔ ⟨d, t⟩ ∈ ts := by
  rw [ofDegree, List.mem_filterMap]
  constructor
  · rintro ⟨⟨e, s⟩, hs, hst⟩
    by_cases he : e = d
    · subst he
      rw [ofDegree?_self, Option.some.injEq] at hst
      rwa [← hst]
    · rw [ofDegree?_of_ne he] at hst
      cases hst
  · intro ht
    exact ⟨_, ht, ofDegree?_self t⟩

/-- A product has the factors of both monomials. -/
theorem mem_factors_mul [Scalar α] {s t : AnyMonomial α} {v : VariableId} :
    v ∈ (s.mul t).2.factors.toList ↔ v ∈ s.2.factors.toList ∨ v ∈ t.2.factors.toList := by
  rw [AnyMonomial.mul, Monomial.mul, Vector.toList_append, List.mem_append]

/-- A monomial with a factor is no constant. -/
theorem degree_pos_of_mem_factors {t : AnyMonomial α} {v : VariableId}
    (hv : v ∈ t.2.factors.toList) : 0 < t.1 := by
  have hlength := List.length_pos_of_mem hv
  rwa [Vector.length_toList] at hlength

end AnyMonomial

namespace Poly

open AnyMonomial

variable [Scalar α]

/-- The polynomial has no terms, and its constant is zero. -/
def IsZero (p : Poly α) : Prop :=
  p.linear = [] ∧ p.quadratic = [] ∧ p.cubic = [] ∧ (p.constant == 0) = true

/-- The number of terms of a degree. A constant is one term of degree zero unless it is zero. -/
def termCount (p : Poly α) : ℕ → ℕ
  | 0 => if p.constant == 0 then 0 else 1
  | 1 => p.linear.length
  | 2 => p.quadratic.length
  | 3 => p.cubic.length
  | _ + 4 => 0

variable {p q r : Poly α}

theorem length_part (p : Poly α) (d : ℕ) : (p.part d).length = p.termCount d := by
  rcases d with _ | _ | _ | _ | d
  · simp only [part, termCount]
    split <;> rfl
  · rfl
  · rfl
  · rfl
  · rfl

theorem isZero_iff : p.IsZero ↔ p.monomials = [] := by
  have hconstant : p.part 0 = [] ↔ (p.constant == 0) = true := by
    simp [part]
  simp only [monomials, List.flatMap_eq_nil_iff, List.map_eq_nil_iff, List.forall_mem_cons,
    hconstant, IsZero]
  constructor
  · rintro ⟨hlinear, hquadratic, hcubic, hzero⟩
    exact ⟨hzero, hlinear, hquadratic, hcubic, List.forall_mem_nil _⟩
  · rintro ⟨hzero, hlinear, hquadratic, hcubic, -⟩
    exact ⟨hlinear, hquadratic, hcubic, hzero⟩

/-- A polynomial that is not zero has a monomial of its degree. -/
theorem exists_mem_monomials_of_not_isZero (h : ¬ p.IsZero) :
    ∃ t ∈ p.monomials, t.1 = p.degree := by
  rcases Nat.eq_zero_or_pos p.degree with hzero | hpos
  · rw [isZero_iff] at h
    rcases List.exists_mem_of_ne_nil _ h with ⟨t, ht⟩
    have hle := le_degree_of_mem_monomials ht
    exact ⟨t, ht, by omega⟩
  · exact exists_mem_monomials hpos

theorem mem_vars_iff_exists_monomial {v : VariableId} :
    v ∈ p.vars ↔ ∃ t ∈ p.monomials, v ∈ t.2.factors.toList := by
  rw [mem_vars_iff]
  constructor
  · rintro ⟨d, t, ht, hv⟩
    exact ⟨⟨d, t⟩, mem_monomials.mpr ht, hv⟩
  · rintro ⟨t, ht, hv⟩
    exact ⟨t.1, t.2, mem_monomials.mp ht, hv⟩

/-- Beyond the constant, the terms of a product are the products of monomials. -/
theorem part_mul (h : p.mul q = .ok r) {d : ℕ} (hd : 0 < d) :
    r.part d = ofDegree d (p.products q) := by
  have hdegree : ¬ maxDegree < p.degree + q.degree := by
    intro hlt
    rw [mul, if_pos hlt] at h
    cases h
  rw [mul_eq_extend hdegree] at h
  cases h
  rcases d with _ | _ | _ | _ | d
  · cases hd
  · rfl
  · rfl
  · rfl
  · -- There are no products of a degree above three.
    refine (ofDegree_of_ne fun t ht heq => hdegree (exists_mem_products_iff.mp ⟨t, ht, ?_⟩)).symm
    rw [heq, maxDegree]
    omega

theorem mem_monomials_mul_iff (h : p.mul q = .ok r) {t : AnyMonomial α} (ht : 0 < t.1) :
    t ∈ r.monomials ↔ ∃ s ∈ p.monomials, ∃ u ∈ q.monomials, s.mul u = t := by
  rw [mem_monomials, part_mul h ht, mem_ofDegree, products]
  simp only [List.mem_flatMap, List.mem_map]

/-- The variables of a product are those of both polynomials. -/
theorem mem_vars_mul (h : p.mul q = .ok r) (hp : ¬ p.IsZero) (hq : ¬ q.IsZero) {v : VariableId} :
    v ∈ r.vars ↔ v ∈ p.vars ∨ v ∈ q.vars := by
  simp only [mem_vars_iff_exists_monomial]
  constructor
  · rintro ⟨t, ht, hv⟩
    rcases (mem_monomials_mul_iff h (degree_pos_of_mem_factors hv)).mp ht with ⟨s, hs, u, hu, rfl⟩
    rcases mem_factors_mul.mp hv with hv | hv
    · exact Or.inl ⟨s, hs, hv⟩
    · exact Or.inr ⟨u, hu, hv⟩
  · -- A monomial of one polynomial is in the product once it meets one of the other.
    have hproduct {s u : AnyMonomial α} (hs : s ∈ p.monomials) (hu : u ∈ q.monomials)
        (hv : v ∈ s.2.factors.toList ∨ v ∈ u.2.factors.toList) :
        ∃ t ∈ r.monomials, v ∈ t.2.factors.toList := by
      have hfactor := mem_factors_mul.mpr hv
      exact ⟨s.mul u, (mem_monomials_mul_iff h (degree_pos_of_mem_factors hfactor)).mpr
        ⟨s, hs, u, hu, rfl⟩, hfactor⟩
    rcases exists_mem_monomials_of_not_isZero hp with ⟨s₀, hs₀, -⟩
    rcases exists_mem_monomials_of_not_isZero hq with ⟨u₀, hu₀, -⟩
    rintro (⟨s, hs, hv⟩ | ⟨u, hu, hv⟩)
    · exact hproduct hs hu₀ (Or.inl hv)
    · exact hproduct hs₀ hu (Or.inr hv)

/-- The degree of a product is the sum of the degrees. -/
theorem degree_mul (h : p.mul q = .ok r) (hp : ¬ p.IsZero) (hq : ¬ q.IsZero) :
    r.degree = p.degree + q.degree := by
  apply Nat.le_antisymm
  · by_contra hlt
    -- A term of a higher degree would be a product of monomials that are too large.
    rcases exists_mem_monomials (p := r) (by omega) with ⟨t, ht, hdegree⟩
    rcases (mem_monomials_mul_iff h (by omega)).mp ht with ⟨s, hs, u, hu, rfl⟩
    have hs := le_degree_of_mem_monomials hs
    have hu := le_degree_of_mem_monomials hu
    simp only [AnyMonomial.mul] at hdegree
    omega
  · by_contra hlt
    rcases exists_mem_monomials_of_not_isZero hp with ⟨s, hs, hsdegree⟩
    rcases exists_mem_monomials_of_not_isZero hq with ⟨u, hu, hudegree⟩
    have hdegree : (s.mul u).1 = p.degree + q.degree := by rw [← hsdegree, ← hudegree]; rfl
    have hle := le_degree_of_mem_monomials
      ((mem_monomials_mul_iff h (t := s.mul u) (by omega)).mpr ⟨s, hs, u, hu, rfl⟩)
    omega

/-- A polynomial without monomials meets nothing. -/
theorem mul_eq_zero (h : p.mul q = .ok r) (hzero : p.IsZero ∨ q.IsZero) : r = .ofConstant 0 := by
  have hproducts : p.products q = [] := by
    rcases hzero with hzero | hzero
    · rw [products, isZero_iff.mp hzero, List.flatMap_nil]
    · simp [products, isZero_iff.mp hzero]
  have hexpand : p.expand q = some r := by rw [expand_eq, h]; rfl
  rw [expand, hproducts] at hexpand
  exact (Option.some.inj hexpand).symm

theorem length_cross (p q : Poly α) (i j : ℕ) :
    (p.cross q i j).length = p.termCount i * q.termCount j := by
  rw [cross, List.length_flatMap]
  simp [length_part]

/-- The products of one degree in the row of the monomials of degree `i`. -/
theorem length_ofDegree_row (p q : Poly α) (i d : ℕ) :
    (ofDegree d (p.row q i)).length = if i ≤ d then p.termCount i * q.termCount (d - i) else 0 := by
  by_cases hle : i ≤ d
  · obtain ⟨j, rfl⟩ := Nat.exists_eq_add_of_le hle
    rw [if_pos hle, ofDegree_row, length_cross, Nat.add_sub_cancel_left]
  · rw [if_neg hle, ofDegree_row_of_lt (not_le.mp hle), List.length_nil]

/-- The terms of a product are counted by convolution of the counts. -/
theorem termCount_mul (h : p.mul q = .ok r) {d : ℕ} (hd : 0 < d) :
    r.termCount d =
      ∑ ij ∈ Finset.HasAntidiagonal.antidiagonal d, p.termCount ij.1 * q.termCount ij.2 := by
  calc r.termCount d
      = (ofDegree d (p.products q)).length := by rw [← part_mul h hd, length_part]
    _ = ∑ i ∈ Finset.range 4, (ofDegree d (p.row q i)).length := by
        simp only [products_eq, ofDegree_append, List.length_append, Finset.sum_range_succ,
          Finset.sum_range_zero, Nat.zero_add]
    _ = ∑ i ∈ Finset.range 4 with i ≤ d, p.termCount i * q.termCount (d - i) := by
        rw [Finset.sum_filter]
        exact Finset.sum_congr rfl fun i _ => length_ofDegree_row p q i d
    _ = ∑ i ∈ Finset.range (d + 1), p.termCount i * q.termCount (d - i) := by
        -- What the sum over all degrees has in addition are degrees without terms.
        refine Finset.sum_subset (fun i hi => ?_) fun i hi hout => ?_
        · simp only [Finset.mem_filter, Finset.mem_range] at hi ⊢
          omega
        · simp only [Finset.mem_filter, Finset.mem_range] at hi hout
          obtain ⟨k, rfl⟩ : ∃ k, i = k + 4 := ⟨i - 4, by omega⟩
          exact Nat.zero_mul _
    _ = _ := by rw [Finset.Nat.sum_antidiagonal_eq_sum_range_succ_mk]

/-- Two polynomials whose degrees come to at most three have a product. If none of them is zero,
    its degree is the sum of theirs and its variables are those of both. If one is zero, nothing
    is left of the other. Either way there are as many terms of each degree as there are pairs of
    monomials whose degrees add up to it. -/
theorem support_mul (h : p.degree + q.degree ≤ 3) :
    ∃ r, p.mul q = .ok r ∧
      (¬ p.IsZero → ¬ q.IsZero →
        r.degree = p.degree + q.degree ∧ ∀ v, v ∈ r.vars ↔ v ∈ p.vars ∨ v ∈ q.vars) ∧
      (p.IsZero ∨ q.IsZero → r = .ofConstant 0) ∧
      ∀ d, 0 < d →
        r.termCount d =
          ∑ ij ∈ Finset.HasAntidiagonal.antidiagonal d, p.termCount ij.1 * q.termCount ij.2 := by
  obtain ⟨r, hr⟩ : ∃ r, p.mul q = .ok r := ⟨_, if_neg (not_lt.mpr h)⟩
  refine ⟨r, hr, ?_, mul_eq_zero hr, fun d hd => termCount_mul hr hd⟩
  intro hp hq
  exact ⟨degree_mul hr hp hq, fun v => mem_vars_mul hr hp hq⟩

/-- All coefficients of the product vanish by underflow or are NaN, and its terms are there all the
    same. The first polynomial has no constant and the second one has one, so there is a linear
    term for that of the first one and none for those of the second one. Multiplied by a zero,
    even a coefficient that is NaN is gone. -/
theorem support_mul_vanishing :
    ∃ (p q r : Poly Float),
      p = ⟨-0, [⟨#v[⟨0⟩], 1e-200⟩], [⟨#v[⟨1⟩, ⟨0⟩], 0 / 0⟩], []⟩ ∧
      q = ⟨1e-200, [⟨#v[⟨2⟩], -1e-200⟩, ⟨#v[⟨0⟩], 1e-200⟩], [], []⟩ ∧
      p.degree + q.degree ≤ 3 ∧ p.mul q = .ok r ∧
      ((∀ t ∈ r.linear, t.coefficient = 0) ∧ ∀ t ∈ r.cubic, t.coefficient.isNaN = true) ∧
      (r.degree = p.degree + q.degree ∧ ∀ v, v ∈ r.vars ↔ v ∈ p.vars ∨ v ∈ q.vars) ∧
      r.degree = 3 ∧ r.vars = [⟨0⟩, ⟨2⟩, ⟨1⟩] ∧
      (r.termCount 1 = 1 ∧ r.termCount 2 = 3 ∧ r.termCount 3 = 2) ∧
      p.mul (.ofConstant (-0)) = .ok (.ofConstant 0) := by
  set p : Poly Float := ⟨-0, [⟨#v[⟨0⟩], 1e-200⟩], [⟨#v[⟨1⟩, ⟨0⟩], 0 / 0⟩], []⟩
  set q : Poly Float := ⟨1e-200, [⟨#v[⟨2⟩], -1e-200⟩, ⟨#v[⟨0⟩], 1e-200⟩], [], []⟩
  have hp : ¬ p.IsZero := fun h => absurd h.1 (List.cons_ne_nil _ _)
  have hq : ¬ q.IsZero := fun h => absurd h.1 (List.cons_ne_nil _ _)
  have hdegree : p.degree + q.degree ≤ 3 := le_refl 3
  rcases support_mul hdegree with ⟨r, hr, hsupport, -, -⟩
  -- The product is computed once for all that is read off it.
  have hread : ((∀ t ∈ r.linear, t.coefficient = 0) ∧ ∀ t ∈ r.cubic, t.coefficient.isNaN = true) ∧
      r.vars = [⟨0⟩, ⟨2⟩, ⟨1⟩] ∧ r.termCount 1 = 1 ∧ r.termCount 2 = 3 ∧ r.termCount 3 = 2 := by
    cases hr
    decide +kernel
  rcases hread with ⟨hcoefficients, hvars, hcounts⟩
  have hzero : (ofConstant (-0) : Poly Float).IsZero := ⟨rfl, rfl, rfl, by decide +kernel⟩
  rcases support_mul (p := p) (q := ofConstant (-0)) (by decide) with ⟨s, hs, -, hnothing, -⟩
  refine ⟨p, q, r, rfl, rfl, hdegree, hr, hcoefficients, hsupport hp hq, (hsupport hp hq).1, hvars,
    hcounts, ?_⟩
  rw [hs, hnothing (Or.inr hzero)]

end Poly

end Presolve
