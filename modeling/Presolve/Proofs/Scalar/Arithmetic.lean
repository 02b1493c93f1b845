import Presolve.Proofs.Scalar.Rounding

/-!
# Differences and Quotients

The subtraction and the division of double precision take their operands apart,
compute with the mantissas and round what comes out. A difference brings both
mantissas to the smaller of the two exponents and is exact before it is rounded.
A quotient shifts the dividend so far to the left that the integral quotient has
all the bits that rounding needs, and what is left over only decides on which
side of the half-way point it lies.

Both are therefore the rounding of the rational difference or quotient of the
rational numbers that the operands stand for.

## Main definitions

* `Double.value`: The rational number that a finite number stands for.
* `Double.RoundedFrom`: An unpacked number is what a rational number is rounded
  to.

## Theorems

* `Double.sub_rounded`: Differences are rounded rational differences.
* `Double.div_rounded`: Quotients are rounded rational quotients.
-/

namespace Presolve

namespace Double

open Float.Model Float.Model.UnpackedFloat Scalar

/-- The rational number that a finite number stands for. -/
def value : UnpackedFloat → ℚ
  | .finite .positive m e _ => m * 2 ^ e
  | .finite .negative m e _ => -(m * 2 ^ e)
  | _ => 0

/-- A magnitude with a sign. -/
def signed : Sign → ℚ → ℚ
  | .positive, x => x
  | .negative, x => -x

/-- An unpacked number is what `x` is rounded to, but for overflow. -/
def RoundedFrom (x : ℚ) (u : UnpackedFloat) : Prop :=
  ∃ s k y, 0 ≤ y ∧ RoundsTo y k ∧ Rounded s k u ∧ x = signed s y

theorem roundedFrom_zero (s : Sign) : RoundedFrom 0 (.zero s) :=
  ⟨s, 0, 0, le_refl _, roundsTo_zero, .zero, by cases s <;> simp only [signed, neg_zero]⟩

theorem roundedFrom_self (s : Sign) {m : ℕ} {e : ℤ} (hm : 0 < m) (h : Normal m e) :
    RoundedFrom (value (.finite s m e hm)) (.finite s m e hm) :=
  ⟨s, height m e, m * 2 ^ e, by positivity, roundsTo_normal h, .finite hm h, by cases s <;> rfl⟩

theorem normalize_rounded (n e : ℤ) (s : Sign) :
    RoundedFrom (n * 2 ^ e) (UnpackedFloat.normalize Format.binary64 n e s) := by
  -- The sign is split off, and the magnitude is rounded.
  rcases lt_trichotomy n 0 with hlt | heq | hgt
  · rcases round_rounded .negative e (show 0 < (-n).toNat by omega) with ⟨k, hk, hround⟩
    have hcast : ((-n).toNat : ℚ) = -n := by exact_mod_cast Int.toNat_of_nonneg (by omega)
    rw [UnpackedFloat.normalize, compare_lt_iff_lt.mpr hlt]
    refine ⟨.negative, k, _, by positivity, hk, hround, ?_⟩
    rw [signed, hcast]
    ring
  · rw [UnpackedFloat.normalize, compare_eq_iff_eq.mpr heq, heq, Int.cast_zero, zero_mul]
    exact roundedFrom_zero s
  · rcases round_rounded .positive e (show 0 < n.toNat by omega) with ⟨k, hk, hround⟩
    have hcast : (n.toNat : ℚ) = n := by exact_mod_cast Int.toNat_of_nonneg (by omega)
    rw [UnpackedFloat.normalize, compare_gt_iff_gt.mpr hgt]
    refine ⟨.positive, k, _, by positivity, hk, hround, ?_⟩
    rw [signed, hcast]

/-- Lowering the exponent keeps the value. -/
theorem value_decreaseExponent (s : Sign) {m : ℕ} {e f : ℤ} (hm : 0 < m) (h : f ≤ e) :
    (s.apply (decreaseExponent m e f).1 : ℚ) * 2 ^ f = value (.finite s m e hm) := by
  have hmantissa : ((decreaseExponent m e f).1 : ℚ) * 2 ^ f = m * 2 ^ e := by
    simp only [decreaseExponent, Nat.shiftLeft_eq]
    push_cast
    rw [mul_assoc, ← zpow_add_natCast]
    congr 2
    omega
  cases s <;> simp only [Sign.apply, value] <;> push_cast <;> linarith

theorem sub_rounded {u v : UnpackedFloat} (hu : Canonical u) (hv : Canonical v)
    (hu' : u.isFinite = true) (hv' : v.isFinite = true) :
    RoundedFrom (value u - value v) (UnpackedFloat.sub Format.binary64 u v) := by
  cases u with
  | notANumber => exact absurd hu' Bool.false_ne_true
  | infinity s => exact absurd hu' Bool.false_ne_true
  | zero s =>
      cases v with
      | notANumber => exact absurd hv' Bool.false_ne_true
      | infinity t => exact absurd hv' Bool.false_ne_true
      | zero t =>
          simp only [value, sub_self, UnpackedFloat.sub]
          split
          · exact roundedFrom_zero s
          · exact roundedFrom_zero .positive
      | finite t n f hn =>
          have hneg : value (.zero s) - value (.finite t n f hn) = value (.finite (-t) n f hn) := by
            cases t with
            | positive => exact zero_sub _
            | negative => exact (zero_sub _).trans (neg_neg _)
          rw [hneg]
          exact roundedFrom_self (-t) hn hv.1
  | finite s m e hm =>
      cases v with
      | notANumber => exact absurd hv' Bool.false_ne_true
      | infinity t => exact absurd hv' Bool.false_ne_true
      | zero t =>
          have hzero : value (.zero t) = 0 := rfl
          rw [hzero, sub_zero]
          exact roundedFrom_self s hm hu.1
      | finite t n f hn =>
          -- Both mantissas are brought to the smaller exponent.
          have hvalue := normalize_rounded (s.apply (decreaseExponent m e (min e f)).1
            - t.apply (decreaseExponent n f (min e f)).1) (min e f) .positive
          rw [Int.cast_sub, sub_mul, value_decreaseExponent s hm (min_le_left e f),
            value_decreaseExponent t hn (min_le_right e f)] at hvalue
          exact hvalue

/-- The quotient of two magnitudes in units of a smaller exponent is that of two
    natural numbers. -/
theorem quotient_eq (m : ℕ) {n : ℕ} {e f t : ℤ} {d : ℕ} (hn : 0 < n) (h : e - f = t + d) :
    (m : ℚ) * 2 ^ e / (n * 2 ^ f) / 2 ^ t
      = (m <<< d / n : ℕ) + ((m <<< d % n : ℕ) : ℚ) / n := by
  have hnQ : (0 : ℚ) < n := by exact_mod_cast hn
  -- The shifted dividend is the divisor times the quotient plus the remainder.
  have hdiv : ((m <<< d : ℕ) : ℚ) = n * (m <<< d / n : ℕ) + (m <<< d % n : ℕ) := by
    exact_mod_cast (Nat.div_add_mod _ _).symm
  have hpow : (2 : ℚ) ^ e = 2 ^ d * 2 ^ t * 2 ^ f := by
    rw [← zpow_add_natCast, ← h, ← zpow_add₀ (by norm_num), sub_add_cancel]
  have hshift : ((m <<< d : ℕ) : ℚ) = m * 2 ^ d := by
    rw [Nat.shiftLeft_eq]
    push_cast
    rfl
  have hquotient : (m : ℚ) * 2 ^ e / (n * 2 ^ f) / 2 ^ t = ((m <<< d : ℕ) : ℚ) / n := by
    rw [hpow, hshift]
    field_simp
  rw [hquotient, hdiv]
  field_simp

/-- The quotient of two magnitudes lies above the power of two just below the
    difference of their total exponents. -/
theorem two_zpow_lt_quotient {m n : ℕ} (e f : ℤ) (hm : 0 < m) (hn : 0 < n) :
    (2 : ℚ) ^ (totalExponent m e - totalExponent n f - 1) < m * 2 ^ e / (n * 2 ^ f) := by
  have hnum : (2 : ℚ) ^ (totalExponent m e - 1) ≤ m * 2 ^ e := by
    refine two_zpow_le hm ?_
    rw [mul_div_cancel_right₀ _ (by positivity)]
  have hden : (n : ℚ) * 2 ^ f < 2 ^ totalExponent n f := by
    refine lt_two_zpow ?_
    rw [mul_div_cancel_right₀ _ (by positivity)]
    exact lt_add_one _
  rw [lt_div_iff₀ (by positivity)]
  calc (2 : ℚ) ^ (totalExponent m e - totalExponent n f - 1) * (n * 2 ^ f)
      < 2 ^ (totalExponent m e - totalExponent n f - 1) * 2 ^ totalExponent n f :=
        mul_lt_mul_of_pos_left hden (by positivity)
    _ = 2 ^ (totalExponent m e - 1) := by
        rw [← zpow_add₀ (by norm_num)]
        congr 1
        ring
    _ ≤ m * 2 ^ e := hnum

/-- The quotient of two magnitudes has enough bits, as its total exponent is no
    less than the difference of theirs, which is what the division aims at. -/
theorem divCore_rounded (s : Sign) {m n : ℕ} (e f : ℤ) (hm : 0 < m) (hn : 0 < n) :
    ∃ k, RoundsTo (m * 2 ^ e / (n * 2 ^ f)) k ∧
      Rounded s k (let (q, t, acc) := divCore Format.binary64 m e n f
        roundWithAccuracy Format.binary64 s q t acc) := by
  set t := min (e - f) (Format.binary64.targetExponent (totalExponent m e - totalExponent n f))
    with ht
  set d := (e - f - t).toNat with hd
  have haim : Format.binary64.targetExponent (totalExponent m e - totalExponent n f)
      = max (totalExponent m e - totalExponent n f - 53) (-1074) := by
    have hmin : Format.binary64.minExponent = -1074 := by decide
    have hbits : (Format.binary64.mantissaBits : ℤ) = 53 := by decide
    rw [Format.targetExponent, hmin, hbits]
  have hstands : Stands (.ofMantissaAndAccuracy (m <<< d / n)
      (accuracyOfFraction (m <<< d % n) n)) ((m : ℚ) * 2 ^ e / (n * 2 ^ f) / 2 ^ t) := by
    rw [quotient_eq (d := d) m hn (by omega)]
    exact stands_fraction _ (Nat.mod_lt _ hn)
  have hfloor := hstands.floor
  rw [mantissa_ofMantissaAndAccuracy] at hfloor
  -- The quotient is not below the exponent aimed at, so no bit is missing.
  have htotal : totalExponent m e - totalExponent n f ≤ totalExponent (m <<< d / n) t := by
    have hlt := (two_zpow_lt_quotient e f hm hn).trans (lt_two_zpow hfloor.2)
    have := (zpow_lt_zpow_iff_right₀ (by norm_num : (1 : ℚ) < 2)).mp hlt
    omega
  have hgrid : t ≤ Format.binary64.targetExponent (totalExponent (m <<< d / n) t) := by
    have hquotient : totalExponent (m <<< d / n) t = (m <<< d / n).log2 + 1 + t := rfl
    rw [targetExponent_eq]
    omega
  refine roundWithAccuracy_rounded s hstands ?_ hgrid
  rcases Nat.eq_zero_or_pos (m <<< d / n) with hzero | hpos
  · right
    rw [hzero] at htotal
    have hquotient : totalExponent 0 t = 0 + 1 + t := rfl
    omega
  · exact Or.inl hpos

theorem div_rounded {u v : UnpackedFloat} (hu' : u.isFinite = true) (hv' : v.isFinite = true)
    (hne : value v ≠ 0) :
    RoundedFrom (value u / value v) (UnpackedFloat.div Format.binary64 u v) := by
  cases v with
  | notANumber => exact absurd hv' Bool.false_ne_true
  | infinity t => exact absurd hv' Bool.false_ne_true
  | zero t => exact absurd rfl hne
  | finite t n f hn =>
      cases u with
      | notANumber => exact absurd hu' Bool.false_ne_true
      | infinity s => exact absurd hu' Bool.false_ne_true
      | zero s =>
          have hzero : value (.zero s) = 0 := rfl
          rw [hzero, zero_div]
          exact roundedFrom_zero (s / t)
      | finite s m e hm =>
          rcases divCore_rounded (s / t) e f hm hn with ⟨k, hk, hround⟩
          refine ⟨s / t, k, _, by positivity, hk, hround, ?_⟩
          -- The sign of a quotient is the quotient of the signs.
          cases s <;> cases t
          · exact neg_div_neg_eq _ _
          · exact neg_div _ _
          · exact div_neg _
          · rfl

end Double

end Presolve
