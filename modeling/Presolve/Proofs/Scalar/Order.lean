import Mathlib.Algebra.Field.Rat
import Mathlib.Algebra.Order.Field.Basic
import Mathlib.Algebra.Order.Ring.Rat
import Mathlib.Order.Lattice
import Presolve.Scalar

/-!
# Scalars on a Line

What a run needs to know about the comparisons it makes. A scalar that is a
number has a place on a line, and the comparisons of two numbers are those of
their places; NaN has no place that matters, as every comparison with it fails.
Two numbers at one place need not be the same value, which is the one thing that
keeps the comparisons from being a linear order: a positive and a negative zero
are equal and yet distinct.

The line is a linear order, so facts about chains of maxima and minima can be
proved there with the lemmas of lattices and carried back. Rational numbers are
their own places.

## Main definitions

* `Scalar.IsNumber`: A scalar is not NaN.
* `OrderedScalar`: Comparisons are those of places on a line.
* `MonotoneScalar`: Differences and quotients keep the order.

## Theorems

* `OrderedScalar.le_of_not_lt`: Two numbers are comparable.
* `OrderedScalar.le_trans`: The order is transitive.
* `OrderedScalar.beq_self`: A number equals itself.
* `OrderedScalar.beq_of_le`: Two numbers that bound each other are equal.
* `OrderedScalar.le_of_beq`: Equal numbers bound each other.
* `OrderedScalar.pos_or_neg`: A number that is not zero has a sign.
* `OrderedScalar.infinite_of_le`: What lies above positive infinity is infinite.
* `OrderedScalar.infinite_of_ge`: What lies below negative infinity is infinite.
-/

namespace Presolve

/-- The scalar is a number, finite or not. -/
def Scalar.IsNumber {α : Type} [Scalar α] (x : α) : Prop := Scalar.isNaN x = false

open Scalar

/-- Scalars whose comparisons are those of places on a line. -/
class OrderedScalar (α : Type) [Scalar α] where
  /-- The places a number can have. -/
  Line : Type
  [linear : LinearOrder Line]
  place : α → Line
  le_iff {x y : α} : x ≤ y ↔ IsNumber x ∧ IsNumber y ∧ place x ≤ place y
  lt_iff {x y : α} : x < y ↔ IsNumber x ∧ IsNumber y ∧ place x < place y
  beq_iff {x y : α} : (x == y) = true ↔ IsNumber x ∧ IsNumber y ∧ place x = place y
  zero_finite : isFinite (0 : α) = true
  isNumber_of_infinite {x : α} : isInfinite x = true → IsNumber x
  /-- Infinity above zero is above every number. -/
  le_infinite {x y : α} : isInfinite x = true → 0 < x → IsNumber y → y ≤ x
  /-- Infinity below zero is below every number. -/
  infinite_le {x y : α} : isInfinite x = true → x < 0 → IsNumber y → x ≤ y
  infinite_congr {x y : α} : (x == y) = true → isInfinite x = isInfinite y

attribute [reducible, instance] OrderedScalar.linear

theorem Scalar.isFinite_iff {α : Type} [Scalar α] {x : α} :
    isFinite x = true ↔ IsNumber x ∧ isInfinite x = false := by
  simp only [isFinite, IsNumber, Bool.and_eq_true, Bool.not_eq_true']

theorem Scalar.isNumber_of_finite {α : Type} [Scalar α] {x : α} (h : isFinite x = true) :
    IsNumber x :=
  (isFinite_iff.mp h).1

namespace OrderedScalar

variable {α : Type} [Scalar α] [OrderedScalar α] {x y z : α}

theorem le_self (h : IsNumber x) : x ≤ x := le_iff.mpr ⟨h, h, le_rfl⟩

theorem le_trans (hxy : x ≤ y) (hyz : y ≤ z) : x ≤ z := by
  rw [le_iff] at hxy hyz ⊢
  exact ⟨hxy.1, hyz.2.1, hxy.2.2.trans hyz.2.2⟩

theorem le_of_lt (h : x < y) : x ≤ y := by
  rw [lt_iff] at h
  exact le_iff.mpr ⟨h.1, h.2.1, h.2.2.le⟩

theorem lt_of_lt_of_le (hxy : x < y) (hyz : y ≤ z) : x < z := by
  rw [lt_iff] at hxy ⊢
  rw [le_iff] at hyz
  exact ⟨hxy.1, hyz.2.1, hxy.2.2.trans_le hyz.2.2⟩

theorem lt_of_le_of_lt (hxy : x ≤ y) (hyz : y < z) : x < z := by
  rw [lt_iff] at hyz ⊢
  rw [le_iff] at hxy
  exact ⟨hxy.1, hyz.2.1, hxy.2.2.trans_lt hyz.2.2⟩

theorem le_of_not_lt (hx : IsNumber x) (hy : IsNumber y) (h : ¬ x < y) : y ≤ x := by
  rw [le_iff]
  refine ⟨hy, hx, not_lt.mp fun hlt => h ?_⟩
  exact lt_iff.mpr ⟨hx, hy, hlt⟩

theorem beq_self (h : IsNumber x) : (x == x) = true := beq_iff.mpr ⟨h, h, rfl⟩

theorem beq_of_le (hxy : x ≤ y) (hyx : y ≤ x) : (x == y) = true := by
  rw [le_iff] at hxy hyx
  exact beq_iff.mpr ⟨hxy.1, hxy.2.1, le_antisymm hxy.2.2 hyx.2.2⟩

theorem le_of_beq (h : (x == y) = true) : x ≤ y := by
  rw [beq_iff] at h
  exact le_iff.mpr ⟨h.1, h.2.1, h.2.2.le⟩

theorem beq_symm (h : (x == y) = true) : (y == x) = true := by
  rw [beq_iff] at h ⊢
  exact ⟨h.2.1, h.1, h.2.2.symm⟩

theorem beq_trans (hxy : (x == y) = true) (hyz : (y == z) = true) : (x == z) = true := by
  rw [beq_iff] at hxy hyz ⊢
  exact ⟨hxy.1, hyz.2.1, hxy.2.2.trans hyz.2.2⟩

theorem pos_or_neg (hx : IsNumber x) (h : (x == 0) = false) : 0 < x ∨ x < 0 := by
  have hzero : IsNumber (0 : α) := isNumber_of_finite zero_finite
  have hne : place x ≠ place (0 : α) := by
    intro hplace
    rw [beq_iff.mpr ⟨hx, hzero, hplace⟩] at h
    exact absurd h (by simp only [Bool.true_eq_false, not_false_eq_true])
  rcases lt_or_gt_of_ne hne with hlt | hgt
  · exact Or.inr (lt_iff.mpr ⟨hx, hzero, hlt⟩)
  · exact Or.inl (lt_iff.mpr ⟨hzero, hx, hgt⟩)

theorem not_lt_of_lt (h : x < y) : ¬ y < x := by
  rw [lt_iff] at h ⊢
  exact fun hyx => absurd hyx.2.2 (not_lt.mpr h.2.2.le)

/-- An infinite number has a sign, zero being finite. -/
theorem infinite_pos_or_neg (h : isInfinite x = true) : 0 < x ∨ x < 0 := by
  refine pos_or_neg (isNumber_of_infinite h) (Bool.eq_false_iff.mpr fun heq => ?_)
  rw [infinite_congr heq, (isFinite_iff.mp zero_finite).2] at h
  exact absurd h (by simp only [Bool.false_eq_true, not_false_eq_true])

/-- A number above positive infinity is at the same place. -/
theorem infinite_of_le (hinf : isInfinite x = true) (hpos : 0 < x) (hle : x ≤ y) :
    isInfinite y = true := by
  have hback : y ≤ x := le_infinite hinf hpos (le_iff.mp hle).2.1
  rw [← infinite_congr (beq_of_le hle hback), hinf]

/-- A number below negative infinity is at the same place. -/
theorem infinite_of_ge (hinf : isInfinite x = true) (hneg : x < 0) (hle : y ≤ x) :
    isInfinite y = true := by
  have hback : x ≤ y := infinite_le hinf hneg (le_iff.mp hle).1
  rw [← infinite_congr (beq_of_le hback hle), hinf]

end OrderedScalar

/-- Rational numbers are their own places. -/
instance : OrderedScalar Rat where
  Line := ℚ
  place x := x
  le_iff := by
    intro x y
    simp only [IsNumber, isNaN, true_and]
  lt_iff := by
    intro x y
    simp only [IsNumber, isNaN, true_and]
  beq_iff := by
    intro x y
    simp only [IsNumber, isNaN, true_and]
    exact beq_iff_eq
  zero_finite := rfl
  isNumber_of_infinite _ := rfl
  le_infinite h := absurd h (by simp only [isInfinite, Bool.false_eq_true, not_false_eq_true])
  infinite_le h := absurd h (by simp only [isInfinite, Bool.false_eq_true, not_false_eq_true])
  infinite_congr _ := rfl

/-- Scalars with differences and quotients that keep the order, as long as what
    is subtracted and what divides is finite. -/
class MonotoneScalar (α : Type) [Scalar α] extends OrderedScalar α where
  sub_le_sub {x y c : α} : x ≤ y → isFinite c = true → x - c ≤ y - c
  div_le_div {x y k : α} : x ≤ y → isFinite k = true → 0 < k → x / k ≤ y / k
  div_le_div_of_neg {x y k : α} : x ≤ y → isFinite k = true → k < 0 → y / k ≤ x / k

instance : MonotoneScalar Rat where
  sub_le_sub h _ := sub_le_sub_right h _
  div_le_div h _ hk := div_le_div_of_nonneg_right h hk.le
  div_le_div_of_neg h _ hk := div_le_div_of_nonpos_of_le hk.le h

end Presolve
