import Presolve.Proofs.Poly.Product
import Presolve.Proofs.Scalar.Exchange

/-!
# Scaling by Multiplication

Multiplying by a polynomial that is a constant is another way to scale. Scaling goes through
the lists and multiplies each coefficient where it stands. The product meets every monomial
with the single one of the constant, and puts what comes of it into lists that are empty at
first. The factors stay what they were, so each list is built up again in its order.

The coefficients are the same up to two things. With the constant as the first polynomial
its number is the first factor of every product. And the constant of the product is
added to a zero or, if it was a zero before, left out and never multiplied. In double
precision the results are equal all the same, though not always to the sign of a zero, and
this includes infinite ones, as neither an overflow nor an underflow depends on the order
of the factors.

## Main definitions

* `Monomial.mapCoefficient`, `AnyMonomial.mapCoefficient`: Another coefficient for the same
  factors.

## Theorems

* `AnyMonomial.ext_factors`: A monomial is known by its factors and its coefficient.
* `Poly.products_ofConstant`, `Poly.ofConstant_products`: What a constant does to monomials.
* `Poly.beq_scale`: Monomials with new coefficients put into lists again.
* `Poly.mul_ofConstant_beq_scale`: Multiplying by a constant is scaling.
-/

namespace Presolve

open Scalar

variable {α : Type}

/-- The same factors with a new coefficient. -/
def Monomial.mapCoefficient {n : ℕ} (f : α → α) (t : Monomial α n) : Monomial α n :=
  ⟨t.factors, f t.coefficient⟩

namespace AnyMonomial

/-- The same factors with a new coefficient. -/
def mapCoefficient (f : α → α) (t : AnyMonomial α) : AnyMonomial α := ⟨t.1, t.2.mapCoefficient f⟩

/-- A monomial is known by its factors and its coefficient, as there are as many factors as its
    degree says. -/
theorem ext_factors {s t : AnyMonomial α} (hfactors : s.2.factors.toList = t.2.factors.toList)
    (hcoefficient : s.2.coefficient = t.2.coefficient) : s = t := by
  rcases s with ⟨m, ⟨⟨⟨vs⟩, rfl⟩, k⟩⟩
  rcases t with ⟨n, ⟨⟨⟨ws⟩, rfl⟩, l⟩⟩
  cases hcoefficient
  cases (hfactors : vs = ws)
  rfl

theorem ofDegree_map_mapCoefficient (f : α → α) (d : ℕ) (ts : List (AnyMonomial α)) :
    ofDegree d (ts.map (mapCoefficient f)) = (ofDegree d ts).map (·.mapCoefficient f) := by
  refine ofDegree_map (fun t => ?_) fun t ht => ?_
  · rfl
  · exact ht

variable [Scalar α]

theorem mul_constant (t : AnyMonomial α) (k : α) :
    t.mul ⟨0, ⟨#v[], k⟩⟩ = t.mapCoefficient (· * k) := by
  refine ext_factors ?_ rfl
  rw [AnyMonomial.mul, Monomial.mul, Vector.toList_append]
  exact List.append_nil _

theorem constant_mul (k : α) (t : AnyMonomial α) :
    AnyMonomial.mul ⟨0, ⟨#v[], k⟩⟩ t = t.mapCoefficient (k * ·) := by
  refine ext_factors ?_ rfl
  rw [AnyMonomial.mul, Monomial.mul, Vector.toList_append]
  exact List.nil_append _

end AnyMonomial

namespace Poly

open AnyMonomial

variable [Scalar α] {p : Poly α} {k : α}

theorem monomials_ofConstant (hk : (k == 0) = false) :
    (ofConstant k).monomials = [⟨0, ⟨#v[], k⟩⟩] := by
  simp [monomials, part, ofConstant, hk]

/-- A constant on the right is the second factor of every coefficient. -/
theorem products_ofConstant (hk : (k == 0) = false) :
    p.products (ofConstant k) = p.monomials.map (AnyMonomial.mapCoefficient (· * k)) := by
  rw [products, monomials_ofConstant hk, List.map_eq_flatMap]
  exact List.flatMap_congr fun t _ => congrArg (fun s => [s]) (mul_constant t k)

/-- A constant on the left is the first factor of every coefficient. -/
theorem ofConstant_products (hk : (k == 0) = false) :
    (ofConstant k).products p = p.monomials.map (AnyMonomial.mapCoefficient (k * ·)) := by
  rw [products, monomials_ofConstant hk, List.flatMap_singleton]
  exact List.map_congr_left fun t _ => constant_mul k t

/-- What putting monomials with new coefficients into lists comes to. -/
theorem extend_map_mapCoefficient (p : Poly α) (f : α → α) :
    (ofConstant 0).extend (p.monomials.map (AnyMonomial.mapCoefficient f)) =
      { constant := if p.constant == 0 then 0 else 0 + f p.constant
        linear := p.linear.map (·.mapCoefficient f)
        quadratic := p.quadratic.map (·.mapCoefficient f)
        cubic := p.cubic.map (·.mapCoefficient f) } := by
  simp only [extend, ofDegree_map_mapCoefficient, ofDegree_monomials, part]
  by_cases hzero : (p.constant == 0) = true
  · rw [if_pos hzero, if_pos hzero]
    rfl
  · rw [if_neg hzero, if_neg hzero]
    rfl

/-- Polynomials are equal if their constants are and their lists, term by term. -/
theorem beq_iff {p q : Poly α} : (p == q) = true ↔
    (p.constant == q.constant) = true ∧ (p.linear == q.linear) = true ∧
      (p.quadratic == q.quadratic) = true ∧ (p.cubic == q.cubic) = true := by
  change (_ && (_ && (_ && _))) = true ↔ _
  simp only [Bool.and_eq_true]

/-- Terms with new coefficients are equal to scaled ones if the coefficients are. -/
theorem beq_map_scale {n : ℕ} {f : α → α} {ts : List (Monomial α n)}
    (h : ∀ t ∈ ts, (f t.coefficient == t.coefficient * k) = true) :
    (ts.map (·.mapCoefficient f) == ts.map (·.scale k)) = true := by
  induction ts with
  | nil => rfl
  | cons t ts ih =>
      rcases List.forall_mem_cons.mp h with ⟨hfirst, hrest⟩
      have hterm : (t.mapCoefficient f == t.scale k) = true := by
        change (t.factors == t.factors && f t.coefficient == t.coefficient * k) = true
        rw [hfirst, beq_self_eq_true]
        rfl
      rw [List.map_cons, List.map_cons, List.cons_beq_cons, hterm, ih hrest]
      rfl

variable [OrderedScalar α] [CommutingScalar α] [AnnihilatingScalar α]

/-- Putting monomials into lists again with coefficients that are equal to scaled ones. -/
theorem beq_scale {f : α → α} (hf : ∀ c ∈ p.coefficients, (f c == c * k) = true)
    (hk : isFinite k = true) :
    ((ofConstant 0).extend (p.monomials.map (AnyMonomial.mapCoefficient f)) == p.scale k)
      = true := by
  rw [coefficients, List.forall_mem_cons] at hf
  rcases hf with ⟨hconstant, hterms⟩
  simp only [List.mem_append, List.mem_map] at hterms
  rw [extend_map_mapCoefficient, beq_iff]
  refine ⟨?_, beq_map_scale fun t ht => hterms _ (Or.inl (Or.inl ⟨t, ht, rfl⟩)),
    beq_map_scale fun t ht => hterms _ (Or.inl (Or.inr ⟨t, ht, rfl⟩)),
    beq_map_scale fun t ht => hterms _ (Or.inr ⟨t, ht, rfl⟩)⟩
  -- A zero was left out, and scaling it gives a zero as well.
  by_cases hzero : (p.constant == 0) = true
  · rw [if_pos hzero]
    exact OrderedScalar.beq_symm (AnnihilatingScalar.beq_zero_mul hzero hk)
  · rw [if_neg hzero]
    exact OrderedScalar.beq_trans
      (CommutingScalar.beq_zero_add (OrderedScalar.beq_iff.mp hconstant).1) hconstant

/-- A polynomial with finite numbers can be multiplied by a finite constant that is not zero, from
    either side, and both products are equal to the scaled polynomial, term by term. -/
theorem mul_ofConstant_beq_scale (hp : ∀ c ∈ p.coefficients, isFinite c = true)
    (hk : isFinite k = true) (hne : (k == 0) = false) :
    ∃ right left, p.mul (ofConstant k) = .ok right ∧ (ofConstant k).mul p = .ok left ∧
      (right == p.scale k) = true ∧ (left == p.scale k) = true := by
  have hdegree := p.degree_le_maxDegree
  have hzero : (ofConstant k).degree = 0 := rfl
  have hright := mul_eq_extend (p := p) (q := ofConstant k) (by omega)
  have hleft := mul_eq_extend (p := ofConstant k) (q := p) (by omega)
  rw [products_ofConstant hne] at hright
  rw [ofConstant_products hne] at hleft
  refine ⟨_, _, hright, hleft, beq_scale (fun c hc => ?_) hk, beq_scale (fun c hc => ?_) hk⟩
  · have hnumber := (OrderedScalar.beq_iff.mp (CommutingScalar.beq_mul_comm (hp c hc) hk)).1
    exact OrderedScalar.beq_self hnumber
  · exact CommutingScalar.beq_mul_comm hk (hp c hc)

/-- With the first constant one coefficient overflows, and the zero that scaling gives is not the
    one of the products. With the second constant another coefficient underflows. -/
theorem mul_ofConstant_beq_scale_overflow :
    ∃ p right left right' left' : Poly Float,
      p = ⟨-0, [⟨#v[⟨0⟩], 1e300⟩, ⟨#v[⟨1⟩], -1e-300⟩], [⟨#v[⟨0⟩, ⟨1⟩], 3⟩],
        [⟨#v[⟨1⟩, ⟨1⟩, ⟨0⟩], 0⟩]⟩ ∧
      (∀ c ∈ p.coefficients, isFinite c = true) ∧
      (p.mul (ofConstant 1e200) = .ok right ∧ (ofConstant 1e200).mul p = .ok left ∧
        (right == p.scale 1e200) = true ∧ (left == p.scale 1e200) = true) ∧
      (right.linear.map (·.coefficient.isInf) = [true, false] ∧
        right.constant = 0 ∧ (p.scale 1e200).constant = -0) ∧
      (p.mul (ofConstant (-1e-200)) = .ok right' ∧ (ofConstant (-1e-200)).mul p = .ok left' ∧
        (right' == p.scale (-1e-200)) = true ∧ (left' == p.scale (-1e-200)) = true) ∧
      right'.linear.map (·.coefficient == 0) = [false, true] := by
  set p : Poly Float := ⟨-0, [⟨#v[⟨0⟩], 1e300⟩, ⟨#v[⟨1⟩], -1e-300⟩], [⟨#v[⟨0⟩, ⟨1⟩], 3⟩],
    [⟨#v[⟨1⟩, ⟨1⟩, ⟨0⟩], 0⟩]⟩
  have hp : ∀ c ∈ p.coefficients, isFinite c = true := by decide +kernel
  rcases mul_ofConstant_beq_scale (k := 1e200) hp (by decide +kernel) (by decide +kernel) with
    ⟨right, left, hright, hleft, hbeq⟩
  rcases mul_ofConstant_beq_scale (k := -1e-200) hp (by decide +kernel) (by decide +kernel) with
    ⟨right', left', hright', hleft', hbeq'⟩
  have hoverflow : right.linear.map (·.coefficient.isInf) = [true, false] ∧
      right.constant = 0 ∧ (p.scale 1e200).constant = -0 := by
    cases hright
    decide +kernel
  have hunderflow : right'.linear.map (·.coefficient == 0) = [false, true] := by
    cases hright'
    decide +kernel
  exact ⟨p, right, left, right', left', rfl, hp, ⟨hright, hleft, hbeq⟩, hoverflow,
    ⟨hright', hleft', hbeq'⟩, hunderflow⟩

end Poly

end Presolve
