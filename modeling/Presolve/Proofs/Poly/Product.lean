import Mathlib.Algebra.BigOperators.Ring.List
import Presolve.Poly.Product
import Presolve.Proofs.Poly.Exact
import Presolve.Proofs.Poly.Residue

/-!
# Products

That the product of two polynomials is what multiplying them out gives. To multiply out is
to take every monomial of the first one with every monomial of the second one, and to put
each product into the list of its degree. There are lists up to the degree three, and a
product of a higher degree has no place.

The product is refused exactly if such a monomial would come up. It is refused because of the
two degrees alone, before anything is multiplied, and the degree of a polynomial is that of
its longest list. So this is where it matters that a list has terms whenever it is the reason
for a degree, and that a constant has none.

Over the rational numbers the sum of all monomials is the value of a polynomial, so
multiplying out multiplies the values.

## Main definitions

* `AnyMonomial`: A monomial of any degree.
* `Poly.push`: Put a monomial into the list of its degree.
* `Poly.extend`: Put some monomials there that have a list each.
* `Poly.expand`: Multiply out, if all products have a place.

## Theorems

* `AnyMonomial.ofDegree_map`: Changed monomials of one degree.
* `Poly.ofDegree_monomials`: The monomials of a polynomial that have one degree.
* `Poly.ofDegree_products`: The products of one degree.
* `Poly.mul_eq_extend`: The lists of a product.
* `Poly.expand_eq`: Multiplying out gives the product.
* `Poly.value_expand`: Multiplying out multiplies values.
* `Poly.mul_exact`: What the product is, and when it is refused.
-/

namespace Presolve

/-- A monomial of any degree. -/
abbrev AnyMonomial (α : Type) := (d : Nat) × Monomial α d

variable {α : Type}

namespace AnyMonomial

/-- The monomial, if it has the given degree. -/
def ofDegree? (d : Nat) (t : AnyMonomial α) : Option (Monomial α d) :=
  if h : t.1 = d then some (h ▸ t.2) else none

/-- The monomials of a list that have the given degree. -/
def ofDegree (d : Nat) (ts : List (AnyMonomial α)) : List (Monomial α d) :=
  ts.filterMap (ofDegree? d)

theorem ofDegree?_self {d : Nat} (t : Monomial α d) : ofDegree? d ⟨d, t⟩ = some t := dif_pos rfl

theorem ofDegree?_of_ne {d : Nat} {t : AnyMonomial α} (h : t.1 ≠ d) : ofDegree? d t = none :=
  dif_neg h

theorem ofDegree_append (d : Nat) (ss ts : List (AnyMonomial α)) :
    ofDegree d (ss ++ ts) = ofDegree d ss ++ ofDegree d ts := List.filterMap_append

theorem ofDegree_self {d : Nat} (ts : List (Monomial α d)) :
    ofDegree d (ts.map (Sigma.mk d)) = ts := by
  rw [ofDegree, List.filterMap_map]
  exact (List.filterMap_congr fun t _ => ofDegree?_self t).trans List.filterMap_some

theorem ofDegree_of_ne {d : Nat} {ts : List (AnyMonomial α)} (h : ∀ t ∈ ts, t.1 ≠ d) :
    ofDegree d ts = [] :=
  List.filterMap_eq_nil_iff.mpr fun t ht => ofDegree?_of_ne (h t ht)

/-- A change that takes one degree to another, and no other degree to that one, can be made before
    the monomials of this degree are picked out or after. -/
theorem ofDegree_map {d e : Nat} {f : AnyMonomial α → AnyMonomial α}
    {g : Monomial α d → Monomial α e} (hself : ∀ t, f ⟨d, t⟩ = ⟨e, g t⟩)
    (hother : ∀ t, t.1 ≠ d → (f t).1 ≠ e) {ts : List (AnyMonomial α)} :
    ofDegree e (ts.map f) = (ofDegree d ts).map g := by
  rw [ofDegree, ofDegree, List.filterMap_map, List.map_filterMap]
  refine List.filterMap_congr fun t _ => ?_
  rw [Function.comp_apply]
  by_cases ht : t.1 = d
  · rcases t with ⟨_, t⟩
    subst ht
    rw [hself, ofDegree?_self, ofDegree?_self, Option.map_some]
  · rw [ofDegree?_of_ne ht, ofDegree?_of_ne (hother t ht), Option.map_none]

variable [Scalar α]

/-- Multiply two monomials of any degrees. -/
def mul (s t : AnyMonomial α) : AnyMonomial α := ⟨s.1 + t.1, s.2.mul t.2⟩

end AnyMonomial

namespace Poly

open AnyMonomial

theorem degree_le_maxDegree (p : Poly α) : p.degree ≤ maxDegree := by
  rw [degree_eq, maxDegree]
  split_ifs <;> omega

variable [Scalar α]

/-- All monomials, those of lower degree first. A constant that is zero is left out. -/
def monomials (p : Poly α) : List (AnyMonomial α) :=
  [0, 1, 2, 3].flatMap fun d => (p.part d).map (Sigma.mk d)

/-- Put a monomial into the list of its degree, or add it to the constant. There is no list
    for degrees above three. -/
def push (p : Poly α) : AnyMonomial α → Option (Poly α)
  | ⟨0, t⟩ => some { p with constant := p.constant + t.coefficient }
  | ⟨1, t⟩ => some { p with linear := p.linear ++ [t] }
  | ⟨2, t⟩ => some { p with quadratic := p.quadratic ++ [t] }
  | ⟨3, t⟩ => some { p with cubic := p.cubic ++ [t] }
  | ⟨_ + 4, _⟩ => none

/-- Each monomial of a list put into the list of its degree, those without a list left out. -/
def extend (p : Poly α) (ts : List (AnyMonomial α)) : Poly α where
  constant := (ofDegree 0 ts).foldl (fun c t => c + t.coefficient) p.constant
  linear := p.linear ++ ofDegree 1 ts
  quadratic := p.quadratic ++ ofDegree 2 ts
  cubic := p.cubic ++ ofDegree 3 ts

/-- Every monomial of the first polynomial times every monomial of the second one. -/
def products (p q : Poly α) : List (AnyMonomial α) :=
  p.monomials.flatMap fun s => q.monomials.map s.mul

/-- The products with the monomials of degree `i` of the first polynomial. -/
def row (p q : Poly α) (i : Nat) : List (AnyMonomial α) :=
  (p.part i).flatMap fun s => q.monomials.map (AnyMonomial.mul ⟨i, s⟩)

/-- Put all products of monomials into lists, if there is one for each of them. -/
def expand (p q : Poly α) : Option (Poly α) := (p.products q).foldlM push (ofConstant 0)

variable {p q r : Poly α}

theorem mem_monomials {t : AnyMonomial α} : t ∈ p.monomials ↔ t.2 ∈ p.part t.1 := by
  rcases t with ⟨d, t⟩
  simp only [monomials, List.mem_flatMap, List.mem_map]
  constructor
  · rintro ⟨e, -, s, hs, heq⟩
    cases heq
    exact hs
  · intro ht
    refine ⟨d, ?_, t, ht, rfl⟩
    rcases d with _ | _ | _ | _ | d
    · simp
    · simp
    · simp
    · simp
    · cases ht

/-- A polynomial has no monomials above its degree. -/
theorem le_degree_of_mem_monomials {t : AnyMonomial α} (ht : t ∈ p.monomials) :
    t.1 ≤ p.degree := by
  by_contra hlt
  rw [mem_monomials, part_eq_nil (not_le.mp hlt)] at ht
  cases ht

/-- The degree of a polynomial that is no constant is that of one of its terms. -/
theorem part_degree_ne_nil (h : 0 < p.degree) : p.part p.degree ≠ [] := by
  rw [degree_eq] at h ⊢
  by_cases hcubic : p.cubic ≠ []
  · rw [if_pos hcubic]
    exact hcubic
  · rw [if_neg hcubic] at h ⊢
    by_cases hquadratic : p.quadratic ≠ []
    · rw [if_pos hquadratic]
      exact hquadratic
    · rw [if_neg hquadratic] at h ⊢
      by_cases hlinear : p.linear ≠ []
      · rw [if_pos hlinear]
        exact hlinear
      · rw [if_neg hlinear] at h
        cases h

theorem exists_mem_monomials (h : 0 < p.degree) : ∃ t ∈ p.monomials, t.1 = p.degree := by
  rcases List.exists_mem_of_ne_nil _ (part_degree_ne_nil h) with ⟨t, ht⟩
  exact ⟨⟨p.degree, t⟩, mem_monomials.mpr ht, rfl⟩

/-- Some product of monomials has no list if and only if the degrees exceed the highest one
    together. -/
theorem exists_mem_products_iff :
    (∃ t ∈ p.products q, maxDegree < t.1) ↔ maxDegree < p.degree + q.degree := by
  simp only [products, List.mem_flatMap, List.mem_map]
  constructor
  · rintro ⟨-, ⟨s, hs, t, ht, rfl⟩, hlt⟩
    have hle := Nat.add_le_add (le_degree_of_mem_monomials hs) (le_degree_of_mem_monomials ht)
    exact hlt.trans_le hle
  · intro hlt
    -- None of the two gets beyond that degree alone, so both have a term.
    have hp := p.degree_le_maxDegree
    have hq := q.degree_le_maxDegree
    rcases exists_mem_monomials (p := p) (by omega) with ⟨s, hs, hsdegree⟩
    rcases exists_mem_monomials (p := q) (by omega) with ⟨t, ht, htdegree⟩
    refine ⟨s.mul t, ⟨s, hs, t, ht, rfl⟩, ?_⟩
    simp only [AnyMonomial.mul, hsdegree, htdegree]
    exact hlt

theorem extend_append (r : Poly α) (ss ts : List (AnyMonomial α)) :
    (r.extend ss).extend ts = r.extend (ss ++ ts) := by
  simp only [extend, ofDegree_append, List.foldl_append, List.append_assoc]

theorem push_eq_some {t : AnyMonomial α} (h : t.1 ≤ maxDegree) :
    r.push t = some (r.extend [t]) := by
  rcases t with ⟨_ | _ | _ | _ | d, t⟩
  · simp [push, extend, ofDegree, ofDegree?]
  · simp [push, extend, ofDegree, ofDegree?]
  · simp [push, extend, ofDegree, ofDegree?]
  · simp [push, extend, ofDegree, ofDegree?]
  · simp only [maxDegree] at h
    omega

theorem push_eq_none {t : AnyMonomial α} (h : maxDegree < t.1) : r.push t = none := by
  rcases t with ⟨d, t⟩
  obtain ⟨e, rfl⟩ := Nat.exists_eq_add_of_le' (Nat.succ_le_of_lt h)
  rfl

/-- Monomials that have a list each are put there in their order. -/
theorem foldlM_push {ts : List (AnyMonomial α)} (h : ∀ t ∈ ts, t.1 ≤ maxDegree) :
    ts.foldlM push r = some (r.extend ts) := by
  induction ts generalizing r with
  | nil => simp [extend, ofDegree]
  | cons t ts ih =>
      rw [List.foldlM_cons, push_eq_some (h t List.mem_cons_self), Option.bind_eq_bind,
        Option.bind_some, ih fun s hs => h s (List.mem_cons_of_mem t hs), extend_append]
      rfl

/-- One monomial without a list is enough to fail. -/
theorem foldlM_push_eq_none {ts : List (AnyMonomial α)} (h : ∃ t ∈ ts, maxDegree < t.1) :
    ts.foldlM push r = none := by
  induction ts generalizing r with
  | nil => simp at h
  | cons t ts ih =>
      rw [List.foldlM_cons]
      rcases (List.exists_mem_cons_iff _ t ts).mp h with hlt | hrest
      · rw [push_eq_none hlt]
        rfl
      · cases r.push t with
        | none => rfl
        | some next => exact ih hrest

/-- The monomials of a polynomial that have a given degree. -/
theorem ofDegree_monomials (p : Poly α) (d : Nat) : ofDegree d p.monomials = p.part d := by
  have hother {e : Nat} (he : e ≠ d) : ofDegree d ((p.part e).map (Sigma.mk e)) = [] := by
    refine ofDegree_of_ne fun t ht => ?_
    rcases List.mem_map.mp ht with ⟨t, -, rfl⟩
    exact he
  -- Of the four lists at most one is left.
  simp only [monomials, List.flatMap_cons, List.flatMap_nil, ofDegree_append, List.append_nil]
  rcases d with _ | _ | _ | _ | d
  · simp (disch := omega) only [ofDegree_self, hother, List.append_nil]
  · simp (disch := omega) only [ofDegree_self, hother, List.append_nil, List.nil_append]
  · simp (disch := omega) only [ofDegree_self, hother, List.append_nil, List.nil_append]
  · simp (disch := omega) only [ofDegree_self, hother, List.nil_append]
  · simp (disch := omega) only [hother, List.append_nil]
    rfl

/-- The products of one monomial that have a given degree, which are those with the
    monomials of the degree that is missing. -/
theorem ofDegree_map_mul {i : Nat} (s : Monomial α i) (j : Nat) :
    ofDegree (i + j) (q.monomials.map (AnyMonomial.mul ⟨i, s⟩)) = (q.part j).map s.mul := by
  rw [← ofDegree_monomials q j]
  refine ofDegree_map (fun t => ?_) fun t ht heq => ?_
  · rfl
  · exact ht (Nat.add_left_cancel heq)

/-- The products of the first polynomial's monomials of degree `i` that have a given degree. -/
theorem ofDegree_row (i j : Nat) : ofDegree (i + j) (p.row q i) = p.cross q i j := by
  rw [row, ofDegree, List.filterMap_flatMap, cross]
  exact List.flatMap_congr fun s _ => ofDegree_map_mul s j

theorem ofDegree_row_of_lt {i d : Nat} (h : d < i) : ofDegree d (p.row q i) = [] := by
  refine ofDegree_of_ne fun t ht => ?_
  simp only [row, List.mem_flatMap, List.mem_map] at ht
  rcases ht with ⟨s, -, t, -, rfl⟩
  simp only [AnyMonomial.mul]
  omega

theorem products_eq : p.products q = p.row q 0 ++ p.row q 1 ++ p.row q 2 ++ p.row q 3 := by
  simp [products, monomials, row, List.flatMap_map]

/-- The products of one degree are those of the degrees that add up to it, in the order of the
    first degree. -/
theorem ofDegree_products (p q : Poly α) :
    ofDegree 0 (p.products q) = p.cross q 0 0 ∧
      ofDegree 1 (p.products q) = p.cross q 0 1 ++ p.cross q 1 0 ∧
      ofDegree 2 (p.products q) = p.cross q 0 2 ++ p.cross q 1 1 ++ p.cross q 2 0 ∧
      ofDegree 3 (p.products q)
        = p.cross q 0 3 ++ p.cross q 1 2 ++ p.cross q 2 1 ++ p.cross q 3 0 := by
  have hrow := ofDegree_row (p := p) (q := q)
  -- The rows of a higher degree than is asked for drop out first.
  simp (disch := omega) only [products_eq, ofDegree_append, ofDegree_row_of_lt, List.append_nil]
  rw [← hrow 0 0, ← hrow 0 1, ← hrow 1 0, ← hrow 0 2, ← hrow 1 1, ← hrow 2 0, ← hrow 0 3,
    ← hrow 1 2, ← hrow 2 1, ← hrow 3 0]
  exact ⟨rfl, rfl, rfl, rfl⟩

/-- The lists of a product are made of the products of monomials. -/
theorem mul_eq_extend (h : ¬ maxDegree < p.degree + q.degree) :
    p.mul q = .ok ((ofConstant 0).extend (p.products q)) := by
  rcases ofDegree_products p q with ⟨hconstant, hlinear, hquadratic, hcubic⟩
  rw [mul, if_neg h, extend, hconstant, hlinear, hquadratic, hcubic]
  rfl

/-- Multiplying out gives the product, and fails where it is refused. -/
theorem expand_eq : p.expand q = (p.mul q).toOption := by
  by_cases hdegree : maxDegree < p.degree + q.degree
  · rw [expand, mul, if_pos hdegree, foldlM_push_eq_none (exists_mem_products_iff.mpr hdegree)]
    rfl
  · -- Below the bound no product is without a list.
    have hplaces : ∀ t ∈ p.products q, t.1 ≤ maxDegree := by
      intro t ht
      by_contra hlt
      exact hdegree (exists_mem_products_iff.mp ⟨t, ht, not_le.mp hlt⟩)
    rw [expand, mul_eq_extend hdegree, foldlM_push hplaces]
    rfl

theorem mul_eq_error_iff {e : PolyError α} : p.mul q = .error e ↔
    maxDegree < p.degree + q.degree ∧ e = .degreeOverflow (p.degree + q.degree) := by
  rw [mul]
  by_cases hdegree : maxDegree < p.degree + q.degree
  · rw [if_pos hdegree, Except.error.injEq, eq_comm, and_iff_right hdegree]
  · rw [if_neg hdegree, iff_false_right fun h => hdegree h.1]
    simp only [reduceCtorEq, not_false_eq_true]

section Exact

variable {p q r : Poly ℚ} (x : Assignment ℚ)

theorem value_eq_totals (p : Poly ℚ) : p.value x = p.constant + (p.linear.map (·.value x)).sum
    + (p.quadratic.map (·.value x)).sum + (p.cubic.map (·.value x)).sum := by
  rw [← Monomial.total_eq, ← Monomial.total_eq, ← Monomial.total_eq]
  rfl

/-- A polynomial has the value of all its monomials. -/
theorem value_eq_sum (p : Poly ℚ) : p.value x = (p.monomials.map (·.2.value x)).sum := by
  -- A constant that is zero is no monomial, but then it adds nothing either.
  have hconstant : ((p.part 0).map (·.value x)).sum = p.constant := by
    by_cases hzero : (p.constant == 0) = true
    · rw [part, if_pos hzero, List.map_nil, List.sum_nil, show p.constant = 0 from beq_iff_eq.mp hzero]
    · rw [part, if_neg hzero, List.map_singleton, List.sum_singleton]
      rfl
  rw [value_eq_totals, ← hconstant]
  simp only [monomials, List.flatMap_cons, List.flatMap_nil, List.map_append, List.map_map,
    List.sum_append, List.append_nil]
  simp only [add_assoc]
  rfl

/-- Putting a monomial into its list adds its value. -/
theorem value_push {t : AnyMonomial ℚ} (h : p.push t = some r) :
    r.value x = p.value x + t.2.value x := by
  rcases t with ⟨_ | _ | _ | _ | d, t⟩
  · cases h
    have hvalue : t.value x = t.coefficient := by
      rw [Monomial.value_eq, List.eq_nil_of_length_eq_zero t.factors.length_toList]
      exact mul_one _
    simp only [value_eq_totals, hvalue]
    ring
  · cases h
    simp only [value_eq_totals, List.map_append, List.sum_append, List.map_singleton,
      List.sum_singleton]
    ring
  · cases h
    simp only [value_eq_totals, List.map_append, List.sum_append, List.map_singleton,
      List.sum_singleton]
    ring
  · cases h
    simp only [value_eq_totals, List.map_append, List.sum_append, List.map_singleton,
      List.sum_singleton]
    ring
  · cases h

theorem value_foldlM_push {ts : List (AnyMonomial ℚ)} (h : ts.foldlM push p = some r) :
    r.value x = p.value x + (ts.map (·.2.value x)).sum := by
  induction ts generalizing p with
  | nil =>
      cases h
      exact (add_zero _).symm
  | cons t ts ih =>
      rw [List.foldlM_cons] at h
      rcases Option.bind_eq_some_iff.mp h with ⟨next, hnext, hrest⟩
      rw [ih hrest, value_push x hnext, List.map_cons, List.sum_cons, add_assoc]

/-- The products of all monomials add up to the product of the values. -/
theorem sum_products (p q : Poly ℚ) :
    ((p.products q).map (·.2.value x)).sum = p.value x * q.value x := by
  have hmul (s t : AnyMonomial ℚ) : (s.mul t).2.value x = s.2.value x * t.2.value x := by
    rw [Monomial.value_eq, Monomial.value_eq, Monomial.value_eq, AnyMonomial.mul, Monomial.mul,
      Vector.toList_append, List.map_append, List.prod_append]
    exact mul_mul_mul_comm _ _ _ _
  rw [value_eq_sum x p, products]
  -- The induction is on the monomials of the first factor, each with its row of products.
  induction p.monomials with
  | nil => exact (zero_mul _).symm
  | cons s rest ih =>
      have hrow : ((q.monomials.map s.mul).map (·.2.value x)).sum
          = s.2.value x * q.value x := by
        rw [List.map_map, value_eq_sum x q, ← List.sum_map_mul_left]
        exact congrArg List.sum (List.map_congr_left fun t _ => hmul s t)
      rw [List.flatMap_cons, List.map_append, List.sum_append, hrow, ih, List.map_cons,
        List.sum_cons, add_mul]

/-- Multiplying out multiplies the values. -/
theorem value_expand (h : p.expand q = some r) : r.value x = p.value x * q.value x := by
  have hzero : (ofConstant 0 : Poly ℚ).value x = 0 := by
    simp only [value_eq_totals, ofConstant, List.map_nil, List.sum_nil, add_zero]
  rw [value_foldlM_push x h, sum_products, hzero, zero_add]

end Exact

/-- A product is refused if and only if the two degrees come to more than three together, and
    the fault names what they come to. Otherwise every product of monomials has a list, and the
    lists are those of the product. Over the rational numbers its value is the product of the
    values. -/
theorem mul_exact :
    (∀ {α : Type} [Scalar α] (p q : Poly α),
      (∀ e, p.mul q = .error e ↔
        3 < p.degree + q.degree ∧ e = .degreeOverflow (p.degree + q.degree)) ∧
      p.expand q = (p.mul q).toOption) ∧
    ∀ (p q r : Poly ℚ), p.mul q = .ok r → ∀ x, r.value x = p.value x * q.value x := by
  refine ⟨fun p q => ⟨fun e => mul_eq_error_iff, expand_eq⟩, ?_⟩
  intro p q r h x
  refine value_expand x ?_
  rw [expand_eq, h]
  rfl

/-- The first polynomial has no constant and is of degree two, the second one is linear with a
    constant. There is no product with a constant of zero, and only one has three factors. The
    square of the first one is refused. -/
theorem mul_exact_mixed :
    ∃ (p q r : Poly ℚ) (x : Assignment ℚ),
      p = ⟨0, [⟨#v[⟨0⟩], 2⟩], [⟨#v[⟨0⟩, ⟨1⟩], 1⟩], []⟩ ∧ q = ⟨3, [⟨#v[⟨1⟩], -1⟩], [], []⟩ ∧
      r = ⟨0, [⟨#v[⟨0⟩], 6⟩], [⟨#v[⟨0⟩, ⟨1⟩], -2⟩, ⟨#v[⟨0⟩, ⟨1⟩], 3⟩],
        [⟨#v[⟨0⟩, ⟨1⟩, ⟨1⟩], -1⟩]⟩ ∧
      p.mul q = .ok r ∧ p.expand q = some r ∧ p.mul p = .error (.degreeOverflow 4) ∧
      p.expand p = none ∧ p.value x ≠ 0 ∧ r.value x = p.value x * q.value x := by
  set p : Poly ℚ := ⟨0, [⟨#v[⟨0⟩], 2⟩], [⟨#v[⟨0⟩, ⟨1⟩], 1⟩], []⟩
  set q : Poly ℚ := ⟨3, [⟨#v[⟨1⟩], -1⟩], [], []⟩
  set r : Poly ℚ := ⟨0, [⟨#v[⟨0⟩], 6⟩], [⟨#v[⟨0⟩, ⟨1⟩], -2⟩, ⟨#v[⟨0⟩, ⟨1⟩], 3⟩],
    [⟨#v[⟨0⟩, ⟨1⟩, ⟨1⟩], -1⟩]⟩
  have hmul : p.mul q = .ok r := by with_unfolding_all rfl
  have hrefused : p.mul p = .error (.degreeOverflow 4) :=
    ((mul_exact.1 p p).1 _).mpr ⟨by decide, rfl⟩
  refine ⟨p, q, r, fun v => v.index + 5, rfl, rfl, rfl, hmul, ?_, hrefused, ?_, by decide +kernel,
    mul_exact.2 p q r hmul _⟩
  · rw [(mul_exact.1 p q).2, hmul]
    rfl
  · rw [(mul_exact.1 p p).2, hrefused]
    rfl

end Poly

end Presolve
