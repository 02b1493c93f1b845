import Presolve.Proofs.Scalar.Absorption

/-!
# Exchanging Factors

Which of two finite numbers is the first factor makes no difference to their product, and
a zero that is added to a number makes none to the number. In double precision neither is a
matter of course. A product may overflow or underflow, but what is rounded is the rational
product, and rounding does not see where it came from. Adding zero does not round at all. It
does not keep the sign of a zero, and the two zeros are equal.

Finite factors are needed. The product of zero and infinity is NaN, which is not equal to
itself. For the sum it is enough that there is a number, finite or not.

## Main definitions

* `CommutingScalar`: Finite factors can be exchanged, and zero can be added.

## Theorems

* `Double.mul_rounded`: A product is the rounded rational product.
-/

namespace Presolve

open Scalar

/-- Scalars in which finite factors can be exchanged and zero can be added. -/
class CommutingScalar (α : Type) [Scalar α] : Prop where
  beq_mul_comm {x y : α} : isFinite x = true → isFinite y = true → (x * y == y * x) = true
  beq_zero_add {x : α} : IsNumber x → (0 + x == x) = true

instance : CommutingScalar Rat where
  beq_mul_comm _ _ := beq_iff_eq.mpr (mul_comm _ _)
  beq_zero_add _ := beq_iff_eq.mpr (zero_add _)

namespace Double

open Float.Model Float.Model.UnpackedFloat

/-- The product of two mantissas has the bits that rounding needs, as one of them is full or
    both exponents are the least. -/
theorem le_targetExponent_mul {m n : ℕ} {e f : ℤ} (hm : 0 < m) (hn : 0 < n) (h : Normal m e)
    (h' : Normal n f) :
    e + f ≤ Format.binary64.targetExponent (totalExponent (m * n) (e + f)) := by
  have hlog {k : ℕ} (hk : 2 ^ 52 ≤ k) : 52 ≤ k.log2 := (Nat.le_log2 (by omega)).mpr hk
  rw [targetExponent_eq]
  rcases h.full_or_least with hfull | hleast
  · have hbits := hlog (hfull.trans (Nat.le_mul_of_pos_right m hn))
    omega
  · rcases h'.full_or_least with hfull | hleast'
    · have hbits := hlog (hfull.trans (Nat.le_mul_of_pos_left n hm))
      omega
    · omega

/-- A product of finite numbers is the rounded product of their values. -/
theorem mul_rounded {u v : UnpackedFloat} (hu : Canonical u) (hv : Canonical v)
    (hu' : u.isFinite = true) (hv' : v.isFinite = true) :
    RoundedFrom (value u * value v) (UnpackedFloat.mul Format.binary64 u v) := by
  cases u with
  | notANumber => cases hu'
  | infinity s => cases hu'
  | zero s =>
      rw [show value (.zero s) = 0 from rfl, zero_mul]
      cases v with
      | notANumber => cases hv'
      | infinity t => cases hv'
      | zero t => exact roundedFrom_zero (s * t)
      | finite t n f hn => exact roundedFrom_zero (s * t)
  | finite s m e hm =>
      cases v with
      | notANumber => cases hv'
      | infinity t => cases hv'
      | zero t =>
          rw [show value (.zero t) = 0 from rfl, mul_zero]
          exact roundedFrom_zero (s * t)
      | finite t n f hn =>
          -- The mantissas are multiplied exactly, and their product is rounded once.
          have hpos : 0 < m * n := Nat.mul_pos hm hn
          have hexact : ((m * n : ℕ) : ℚ) * 2 ^ (e + f) / 2 ^ (e + f) = (m * n : ℕ) :=
            mul_div_cancel_right₀ _ (by positivity)
          rcases roundWithAccuracy_rounded (s * t) (x := (m * n : ℕ) * 2 ^ (e + f))
            (hexact ▸ stands_exact _) (Or.inl hpos) (le_targetExponent_mul hm hn hu.1 hv.1)
            with ⟨k, hk, hround⟩
          refine ⟨s * t, k, _, by positivity, hk, hround, ?_⟩
          have hmagnitude : (m : ℚ) * 2 ^ e * (n * 2 ^ f) = m * n * (2 ^ e * 2 ^ f) :=
            mul_mul_mul_comm _ _ _ _
          rw [zpow_add₀ two_ne_zero, Nat.cast_mul, ← hmagnitude]
          -- The sign of a product is the product of the signs.
          cases s <;> cases t
          · exact neg_mul_neg _ _
          · exact neg_mul _ _
          · exact mul_neg _ _
          · rfl

/-- A zero does not change a number that is added to it, but for the sign of another zero. -/
theorem rank_zero_add {u : UnpackedFloat} (hu : Canonical u) (hu' : u.isNaN = false) :
    (repack (UnpackedFloat.add Format.binary64 (.zero .positive) u)).isNaN = false ∧
      rank (repack (UnpackedFloat.add Format.binary64 (.zero .positive) u)) = rank u := by
  cases u with
  | notANumber => cases hu'
  | infinity s =>
      have hadd : UnpackedFloat.add Format.binary64 (.zero .positive) (.infinity s) = .infinity s := rfl
      rw [hadd, repack_infinity]
      exact ⟨rfl, rfl⟩
  | zero s => cases s <;> exact ⟨by decide, by decide⟩
  | finite s m e hm =>
      have hadd : UnpackedFloat.add Format.binary64 (.zero .positive) (.finite s m e hm)
          = .finite s m e hm := rfl
      rw [hadd, repack_finite s hm hu.1 hu.2]
      exact ⟨rfl, rfl⟩

end Double

open Double in
/-- Both orders of the factors round the same rational number. -/
instance : CommutingScalar Float where
  beq_mul_comm := by
    intro x y hx hy
    have happrox {a b : Float} (ha : isFinite a = true) (hb : isFinite b = true) :
        Approximates (a * b) (value a.toModel.unpack * value b.toModel.unpack) :=
      (mul_rounded (canonical a) (canonical b) (unpack_finite ha) (unpack_finite hb)).approximates
    have hxy := happrox hx hy
    have hyx := happrox hy hx
    exact OrderedScalar.beq_of_le (hxy.mono hyx (mul_comm _ _).le) (hyx.mono hxy (mul_comm _ _).le)
  beq_zero_add := by
    intro x hx
    rcases rank_zero_add (canonical x) hx with ⟨hnumber, hrank⟩
    exact (beq_iff _ _).mpr ⟨hnumber, hx, hrank⟩

end Presolve
