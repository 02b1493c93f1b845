import Presolve.Proofs.Scalar.Monotone

/-!
# Absorption

A number that is not finite stays that way. Whatever is added to it or multiplied with it,
zero included, the result is an infinity or NaN, and none of these is equal to zero. So a
single check at the end of a computation with sums and products is as good as a check
after every step.

Quotients are different, as a finite number divided by an infinity is zero. The class
below therefore speaks of sums and products only.

For a fold the law is used backwards. If the last value is finite then so are the first
one, all that was taken in, and every value on the way.

Zero absorbs what is finite, and that only in products. The converse fails, as a product of
two small numbers can be zero without either of them being zero.

## Main definitions

* `AbsorbingScalar`: Finite sums and products have finite operands.
* `AnnihilatingScalar`: Zero times a finite number is zero.
* `Scalar.Intermediate`: A value on the way of a fold.

## Theorems

* `OrderedScalar.isFinite_congr`: What is equal to a finite number is finite.
* `Scalar.Intermediate.finite`: A fold with a finite result was finite all the way.
-/

namespace Presolve

open Scalar

/-- Scalars whose sums and products are finite only if both operands are. -/
class AbsorbingScalar (α : Type) [Scalar α] : Prop where
  finite_of_add {x y : α} : isFinite (x + y) = true → isFinite x = true ∧ isFinite y = true
  finite_of_mul {x y : α} : isFinite (x * y) = true → isFinite x = true ∧ isFinite y = true

/-- Rational numbers are finite all along. -/
instance : AbsorbingScalar Rat where
  finite_of_add _ := ⟨rfl, rfl⟩
  finite_of_mul _ := ⟨rfl, rfl⟩

/-- Scalars in which zero annihilates what is finite. -/
class AnnihilatingScalar (α : Type) [Scalar α] : Prop where
  beq_zero_mul {x y : α} : (x == 0) = true → isFinite y = true → (x * y == 0) = true

instance : AnnihilatingScalar Rat where
  beq_zero_mul {x y} hx _ := by
    rw [show x = 0 from beq_iff_eq.mp hx, zero_mul]
    exact beq_iff_eq.mpr rfl

namespace Double

open Float.Model Float.Model.UnpackedFloat

theorem isFinite_eq (x : Float) : isFinite x = x.toModel.unpack.isFinite := by
  change (!x.toModel.unpack.isNaN && !x.toModel.unpack.isInf) = x.toModel.unpack.isFinite
  cases x.toModel.unpack <;> rfl

/-- What is not finite is packed as it is. -/
theorem isFinite_repack {u : UnpackedFloat} (h : u.isFinite = false) :
    (repack u).isFinite = false := by
  cases u with
  | notANumber => rfl
  | infinity s =>
      rw [repack_infinity]
      rfl
  | zero s => cases h
  | finite s m e hm => cases h

theorem isFinite_add {f : Format} {u v : UnpackedFloat}
    (h : u.isFinite = false ∨ v.isFinite = false) :
    (UnpackedFloat.add f u v).isFinite = false := by
  cases u with
  | infinity s =>
      -- Of two infinities the signs decide between the first one and NaN.
      cases v with
      | infinity t => cases s <;> cases t <;> rfl
      | _ => rfl
  | _ => cases v <;> simp only [UnpackedFloat.isFinite, Bool.true_eq_false, or_self] at h <;> rfl

theorem isFinite_mul {f : Format} {u v : UnpackedFloat}
    (h : u.isFinite = false ∨ v.isFinite = false) :
    (UnpackedFloat.mul f u v).isFinite = false := by
  cases u <;> cases v <;>
    simp only [UnpackedFloat.isFinite, Bool.true_eq_false, or_self] at h <;> rfl

/-- An operation absorbs if what it gives before packing is not finite whenever an operand
    is not. -/
theorem finite_operands {x y z : Float} {op : UnpackedFloat → UnpackedFloat → UnpackedFloat}
    (hop : ∀ {u v : UnpackedFloat}, u.isFinite = false ∨ v.isFinite = false →
      (op u v).isFinite = false)
    (hz : z.toModel.unpack = repack (op x.toModel.unpack y.toModel.unpack))
    (h : isFinite z = true) : isFinite x = true ∧ isFinite y = true := by
  rw [isFinite_eq, hz] at h
  rw [isFinite_eq, isFinite_eq]
  by_contra hoperands
  rw [not_and_or, Bool.not_eq_true, Bool.not_eq_true] at hoperands
  rw [isFinite_repack (hop hoperands)] at h
  cases h

/-- A number is equal to zero if it is one of the two zeros. -/
theorem beq_zero_iff {x : Float} : (x == 0) = true ↔ ∃ s, x.toModel.unpack = .zero s := by
  have htop := neg_top_lt_zero
  have hcanonical := canonical x
  rw [beq_iff, place_zero, place]
  constructor
  · rintro ⟨hx, -, hrank⟩
    change x.toModel.unpack.isNaN = false at hx
    cases hu : x.toModel.unpack with
    | notANumber => rw [hu] at hx; cases hx
    | zero s => exact ⟨s, rfl⟩
    | infinity s =>
        rw [hu] at hrank
        cases s <;> simp only [rank, Sign.apply] at hrank <;> omega
    | finite s m e hm =>
        rw [hu] at hrank hcanonical
        have hpos := height_pos hm hcanonical.1
        cases s <;> simp only [rank, Sign.apply] at hrank <;> omega
  · rintro ⟨s, hs⟩
    refine ⟨?_, rfl, by rw [hs]; rfl⟩
    change x.toModel.unpack.isNaN = false
    rw [hs]
    rfl

theorem repack_zero (s : Sign) : repack (.zero s) = .zero s := by cases s <;> rfl

end Double

/-- In double precision an infinity or NaN absorbs every other operand. -/
instance : AbsorbingScalar Float where
  finite_of_add := Double.finite_operands Double.isFinite_add rfl
  finite_of_mul := Double.finite_operands Double.isFinite_mul rfl

open Double Float.Model in
/-- The product has the signs of both, and it is a zero. -/
instance : AnnihilatingScalar Float where
  beq_zero_mul := by
    intro x y hx hy
    rcases beq_zero_iff.mp hx with ⟨s, hs⟩
    have hfinite := unpack_finite hy
    have hmul : (x * y).toModel.unpack
        = repack (UnpackedFloat.mul Format.binary64 x.toModel.unpack y.toModel.unpack) := rfl
    rw [beq_zero_iff, hmul, hs]
    cases hu : y.toModel.unpack with
    | notANumber => rw [hu] at hfinite; cases hfinite
    | infinity t => rw [hu] at hfinite; cases hfinite
    | zero t => exact ⟨s * t, repack_zero _⟩
    | finite t m e hm => exact ⟨s * t, repack_zero _⟩

theorem OrderedScalar.isFinite_congr {α : Type} [Scalar α] [OrderedScalar α] {x y : α}
    (h : (x == y) = true) : isFinite x = isFinite y := by
  have hnumbers := beq_iff.mp h
  rw [isFinite, isFinite, infinite_congr h, show isNaN x = false from hnumbers.1,
    show isNaN y = false from hnumbers.2.1]

namespace Scalar

variable {α : Type} [Scalar α]

/-- The fold of a list by `f` comes past `x`, be it at its start or at its end. -/
def Intermediate (f : α → α → α) (start : α) (xs : List α) (x : α) : Prop :=
  ∃ done, done <+: xs ∧ x = done.foldl f start

section Fold

variable {f : α → α → α} {start x : α} {xs : List α}

/-- A fold with a finite result starts with a finite number and takes in no others. -/
theorem finite_of_foldl
    (hf : ∀ {x y}, isFinite (f x y) = true → isFinite x = true ∧ isFinite y = true)
    (h : isFinite (xs.foldl f start) = true) :
    isFinite start = true ∧ ∀ x ∈ xs, isFinite x = true := by
  induction xs generalizing start with
  | nil => exact ⟨h, List.forall_mem_nil _⟩
  | cons a rest ih =>
      rcases ih h with ⟨hfirst, hrest⟩
      rcases hf hfirst with ⟨hstart, ha⟩
      exact ⟨hstart, List.forall_mem_cons.mpr ⟨ha, hrest⟩⟩

theorem Intermediate.finite
    (hf : ∀ {x y}, isFinite (f x y) = true → isFinite x = true ∧ isFinite y = true)
    (h : isFinite (xs.foldl f start) = true) (hx : Intermediate f start xs x) :
    isFinite x = true := by
  rcases hx with ⟨done, ⟨rest, rfl⟩, rfl⟩
  -- What follows after `x` is a fold that starts with it.
  rw [List.foldl_append] at h
  exact (finite_of_foldl hf h).1

end Fold

end Scalar

end Presolve
