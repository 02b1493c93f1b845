import Mathlib.Algebra.BigOperators.Group.List.Basic
import Mathlib.Algebra.Field.Rat
import Mathlib.Tactic.Ring
import Presolve.Proofs.Poly.Terms

/-!
# Exact Reduction

Over the rational numbers a reduction keeps the value of a polynomial. Under an
assignment that gives every fixed variable its number, a term is its folded
coefficient times the values of its unknowns, so each term has the value of its
contribution, and merging contributions to one variable only uses that
multiplication distributes over addition.

## Main definitions

* `Contribution.value`: What a contribution adds to the value.
* `FixedValues.Agrees`: An assignment gives every fixed variable its number.

## Theorems

* `Monomial.value_contribution`: A term has the value of its contribution.
* `LinearForm.value_ofContributions`: A form has the value of its contributions.
* `Poly.value_reduce`: A polynomial has the value of its linear form.
* `Poly.sum_terms_of_reduce`: The two values written out as sums.
-/

namespace Presolve

/-- What a contribution adds to the value. A product adds what the linear form
    leaves out. -/
def Contribution.value (x : Assignment ℚ) : Contribution ℚ → ℚ
  | constant c => c
  | term v k => k * x v
  | product _ => 0

/-- The assignment gives every fixed variable its number. -/
def FixedValues.Agrees {α : Type} (fixed : FixedValues α) (x : Assignment α) : Prop :=
  ∀ v a, fixed v = some a → x v = a

variable {x : Assignment ℚ} {fixed : FixedValues ℚ}

theorem foldl_mul_eq (xs : List ℚ) (k : ℚ) : xs.foldl (· * ·) k = k * xs.prod := by
  induction xs generalizing k with
  | nil => rw [List.foldl_nil, List.prod_nil, mul_one]
  | cons a rest ih => rw [List.foldl_cons, ih, List.prod_cons, mul_assoc]

theorem foldl_add_eq (xs : List ℚ) (k : ℚ) : xs.foldl (· + ·) k = k + xs.sum := by
  induction xs generalizing k with
  | nil => rw [List.foldl_nil, List.sum_nil, add_zero]
  | cons a rest ih => rw [List.foldl_cons, ih, List.sum_cons, add_assoc]

/-- The fixed factors of a product multiply to a number, and the unknowns are
    left. -/
theorem prod_map_split (h : fixed.Agrees x) (factors : List VariableId) :
    (factors.map x).prod
      = (factors.filterMap fixed).prod
        * ((factors.filter fun v => (fixed v).isNone).map x).prod := by
  induction factors with
  | nil => exact (mul_one 1).symm
  | cons v rest ih =>
      rw [List.map_cons, List.prod_cons, ih]
      -- The first factor goes to one of the two products.
      cases hv : fixed v with
      | none =>
          rw [List.filterMap_cons_none hv, List.filter_cons_of_pos (by rw [hv]; rfl),
            List.map_cons, List.prod_cons]
          ring
      | some a =>
          rw [List.filterMap_cons_some hv,
            List.filter_cons_of_neg (by rw [hv]; exact Bool.false_ne_true), List.prod_cons, h v a hv]
          ring

namespace Monomial

variable {n : ℕ} {t : Monomial ℚ n}

theorem value_eq (x : Assignment ℚ) (t : Monomial ℚ n) :
    t.value x = t.coefficient * (t.factors.toList.map x).prod := by
  rw [← foldl_mul_eq, List.foldl_map]
  rfl

/-- A term is its folded coefficient times the values of its unknowns. -/
theorem value_eq_folded (h : fixed.Agrees x) (t : Monomial ℚ n) :
    t.value x = t.folded fixed * ((t.unknowns fixed).map x).prod := by
  have hfolded : t.folded fixed = t.coefficient * (t.factors.toList.filterMap fixed).prod :=
    foldl_mul_eq _ _
  rw [value_eq, prod_map_split h, hfolded, unknowns, mul_assoc]

/-- A term has the value of its contribution. -/
theorem value_contribution (h : fixed.Agrees x)
    (hlinear : (t.contribution fixed).degree? = none) :
    (t.contribution fixed).value x = t.value x := by
  rw [value_eq_folded h]
  simp only [contribution] at hlinear ⊢
  split at hlinear
  · rename_i hunknowns
    rw [hunknowns, List.map_nil, List.prod_nil, mul_one]
    rfl
  · rename_i v hunknowns
    rw [hunknowns, List.map_cons, List.map_nil, List.prod_cons, List.prod_nil, mul_one]
    rfl
  · exact absurd hlinear (by simp only [Contribution.degree?, reduceCtorEq, not_false_eq_true])

theorem total_eq (x : Assignment ℚ) (ts : List (Monomial ℚ n)) :
    Monomial.total x ts = (ts.map (·.value x)).sum := by
  induction ts with
  | nil => rfl
  | cons t rest ih => rw [List.map_cons, List.sum_cons, ← ih]; rfl

/-- Products that are left out have the value zero. -/
theorem total_productContributions (h : fixed.Agrees x) (ts : List (Monomial ℚ n))
    (hlinear : ∀ c ∈ productContributions fixed ts, c.degree? = none) :
    ((productContributions fixed ts).map (·.value x)).sum = Monomial.total x ts := by
  rw [total_eq]
  induction ts with
  | nil => rfl
  | cons t rest ih =>
      simp only [productContributions] at hlinear ih ⊢
      -- A product is left out only if its folded coefficient is zero.
      by_cases hzero : (t.folded fixed == 0) = true
      · have hvalue : t.value x = 0 := by
          rw [value_eq_folded h, show t.folded fixed = 0 from beq_iff_eq.mp hzero, zero_mul]
        rw [List.filter_cons_of_neg (by rw [hzero]; exact Bool.false_ne_true)] at hlinear ⊢
        rw [List.map_cons, List.sum_cons, hvalue, zero_add, ih hlinear]
      · rw [Bool.not_eq_true] at hzero
        rw [List.filter_cons_of_pos (by rw [hzero]; rfl), List.map_cons] at hlinear ⊢
        rw [List.map_cons, List.sum_cons, List.map_cons, List.sum_cons,
          value_contribution h (hlinear _ List.mem_cons_self),
          ih fun c hc => hlinear c (List.mem_cons_of_mem _ hc)]

end Monomial

/-- What the terms of a form add. -/
def termsValue (x : Assignment ℚ) (terms : List (VariableId × ℚ)) : ℚ :=
  (terms.map fun t => t.2 * x t.1).sum

theorem termsValue_addTerm (v : VariableId) (k : ℚ) (terms : List (VariableId × ℚ)) :
    termsValue x (addTerm v k terms) = termsValue x terms + k * x v := by
  induction terms with
  | nil => simp only [addTerm, termsValue, List.map_cons, List.map_nil, List.sum_cons, List.sum_nil,
      add_zero, zero_add]
  | cons t rest ih =>
      simp only [termsValue] at ih ⊢
      simp only [addTerm]
      by_cases heq : t.1 = v
      · have hmerged : (t.2 + k) * x v = t.2 * x v + k * x v := add_mul _ _ _
        rw [if_pos heq, List.map_cons, List.sum_cons, List.map_cons, List.sum_cons, heq,
          add_right_comm, ← hmerged]
      · rw [if_neg heq, List.map_cons, List.sum_cons, ih, List.map_cons, List.sum_cons, add_assoc]

theorem termsValue_addTerms (contributions : List (VariableId × ℚ)) :
    termsValue x (addTerms contributions) = termsValue x contributions := by
  have hmerge (terms : List (VariableId × ℚ)) :
      termsValue x (contributions.foldl (fun terms t => addTerm t.1 t.2 terms) terms)
        = termsValue x terms + termsValue x contributions := by
    induction contributions generalizing terms with
    | nil => exact (add_zero _).symm
    | cons t rest ih =>
        rw [List.foldl_cons, ih, termsValue_addTerm, add_assoc]
        rfl
  rw [addTerms, hmerge]
  exact zero_add _

theorem LinearForm.value_eq (x : Assignment ℚ) (f : LinearForm ℚ) :
    f.value x = f.constant + termsValue x f.terms := by
  have hfold (terms : List (VariableId × ℚ)) :
      terms.foldr (fun t s => t.2 * x t.1 + s) 0 = termsValue x terms := by
    induction terms with
    | nil => rfl
    | cons t rest ih => rw [List.foldr_cons, ih]; rfl
  rw [← hfold]
  rfl

/-- A form without products has the value of its contributions. -/
theorem LinearForm.value_ofContributions (start : ℚ) (cs : List (Contribution ℚ)) :
    (LinearForm.ofContributions start cs).value x = start + (cs.map (·.value x)).sum := by
  -- A contribution is counted once, with the constants or with the terms.
  have hsplit : (cs.filterMap Contribution.constant?).sum
      + termsValue x (cs.filterMap Contribution.term?) = (cs.map (·.value x)).sum := by
    induction cs with
    | nil => exact add_zero 0
    | cons c rest ih =>
        rw [List.map_cons, List.sum_cons, ← ih]
        cases c with
        | constant c => exact add_assoc _ _ _
        | term v k => exact add_left_comm _ _ _
        | product degree => exact (zero_add _).symm
  have hconstant : (LinearForm.ofContributions start cs).constant
      = start + (cs.filterMap Contribution.constant?).sum := foldl_add_eq _ _
  rw [value_eq, hconstant, add_assoc, LinearForm.ofContributions, termsValue_addTerms, hsplit]

/-- A polynomial has the value of its linear form. -/
theorem Poly.value_reduce {p : Poly ℚ} {form : LinearForm ℚ}
    (h : p.reduce fixed = .ok (.linear form)) (hx : fixed.Agrees x) :
    p.value x = form.value x := by
  rcases reduce_eq_linear h with ⟨hproducts, hform, -⟩
  have hlinear (c : Contribution ℚ) (hc : c ∈ p.contributions fixed) : c.degree? = none :=
    List.filterMap_eq_nil_iff.mp hproducts c hc
  simp only [contributions, List.mem_append] at hlinear
  -- The three degrees are summed one by one.
  have hone : ((p.linear.map (Monomial.contribution fixed)).map (·.value x)).sum
      = Monomial.total x p.linear := by
    rw [Monomial.total_eq, List.map_map]
    congr 1
    refine List.map_congr_left fun t ht => ?_
    exact Monomial.value_contribution hx (hlinear _ (Or.inl (Or.inl (List.mem_map_of_mem ht))))
  have htwo := Monomial.total_productContributions hx p.quadratic
    fun c hc => hlinear c (Or.inl (Or.inr hc))
  have hthree := Monomial.total_productContributions hx p.cubic fun c hc => hlinear c (Or.inr hc)
  have hvalue : p.value x = p.constant + Monomial.total x p.linear + Monomial.total x p.quadratic
      + Monomial.total x p.cubic := rfl
  rw [hvalue, hform, LinearForm.value_ofContributions, contributions, List.map_append,
    List.map_append, List.sum_append, List.sum_append, hone, htwo, hthree, add_assoc, add_assoc,
    add_assoc]

/-- Written out as sums, a linear form and the polynomial that reduces to it are equal under
    every assignment that respects what is fixed. -/
theorem Poly.sum_terms_of_reduce {p : Poly ℚ} {form : LinearForm ℚ}
    (h : p.reduce fixed = .ok (.linear form)) (hx : fixed.Agrees x) :
    form.constant + (form.terms.map fun t => t.2 * x t.1).sum
      = p.constant + (p.linear.map fun t => t.coefficient * (t.factors.toList.map x).prod).sum
        + (p.quadratic.map fun t => t.coefficient * (t.factors.toList.map x).prod).sum
        + (p.cubic.map fun t => t.coefficient * (t.factors.toList.map x).prod).sum := by
  calc form.constant + (form.terms.map fun t => t.2 * x t.1).sum
      = form.value x := (form.value_eq x).symm
    _ = p.value x := (value_reduce h hx).symm
    _ = p.constant + Monomial.total x p.linear + Monomial.total x p.quadratic
        + Monomial.total x p.cubic := rfl
    _ = _ := by simp only [Monomial.total_eq, Monomial.value_eq]

/-- The variable `0` is fixed at `2` and the variable `2` at `0`. Terms of all degrees come
    down to multiples of the variable `1`, which is mentioned twice to begin with, the square
    of the first variable adds to the constant, and the products with a zero vanish, whereas
    the linear term with a zero stays. -/
theorem Poly.sum_terms_of_reduce_merged :
    ∃ (p : Poly ℚ) (fixed : FixedValues ℚ) (form : LinearForm ℚ) (x : Assignment ℚ),
      p = ⟨5, [⟨#v[⟨1⟩], 3⟩, ⟨#v[⟨0⟩], 2⟩, ⟨#v[⟨1⟩], 4⟩, ⟨#v[⟨3⟩], 0⟩],
        [⟨#v[⟨0⟩, ⟨0⟩], 1⟩, ⟨#v[⟨1⟩, ⟨0⟩], 2⟩, ⟨#v[⟨2⟩, ⟨3⟩], 7⟩],
        [⟨#v[⟨0⟩, ⟨1⟩, ⟨0⟩], 1⟩, ⟨#v[⟨1⟩, ⟨1⟩, ⟨3⟩], 0⟩]⟩ ∧
      p.reduce fixed = .ok (.linear form) ∧ fixed.Agrees x ∧
      (form.constant, form.terms) = (13, [(⟨1⟩, 15), (⟨3⟩, 0)]) ∧
      form.constant + (form.terms.map fun t => t.2 * x t.1).sum
        = p.constant + (p.linear.map fun t => t.coefficient * (t.factors.toList.map x).prod).sum
          + (p.quadratic.map fun t => t.coefficient * (t.factors.toList.map x).prod).sum
          + (p.cubic.map fun t => t.coefficient * (t.factors.toList.map x).prod).sum := by
  set p : Poly ℚ := ⟨5, [⟨#v[⟨1⟩], 3⟩, ⟨#v[⟨0⟩], 2⟩, ⟨#v[⟨1⟩], 4⟩, ⟨#v[⟨3⟩], 0⟩],
    [⟨#v[⟨0⟩, ⟨0⟩], 1⟩, ⟨#v[⟨1⟩, ⟨0⟩], 2⟩, ⟨#v[⟨2⟩, ⟨3⟩], 7⟩],
    [⟨#v[⟨0⟩, ⟨1⟩, ⟨0⟩], 1⟩, ⟨#v[⟨1⟩, ⟨1⟩, ⟨3⟩], 0⟩]⟩
  set fixed : FixedValues ℚ := fun v =>
    if v = ⟨0⟩ then some 2 else if v = ⟨2⟩ then some 0 else none
  have hread : ((p.reduce fixed).toOption.bind Reduced.form?).map
      (fun form => (form.constant, form.terms)) = some (13, [(⟨1⟩, 15), (⟨3⟩, 0)]) := by
    decide +kernel
  have hx : fixed.Agrees fun v => (fixed v).getD (1 / 3) := by
    intro v a ha
    change (fixed v).getD (1 / 3) = a
    rw [ha, Option.getD_some]
  rcases h : p.reduce fixed with e | form | degree <;> rw [h] at hread
  · cases hread
  · exact ⟨p, fixed, form, _, rfl, h, hx, Option.some.inj hread, sum_terms_of_reduce h hx⟩
  · cases hread

end Presolve
