import Presolve.Proofs.Scalar.Nearest

/-!
# Rounding with Residual Bits

How a magnitude is rounded when it is given as a mantissa and an exponent. Bits
that do not fit are shifted out, and two residual bits remember enough of them:
one tells whether the rest is at least half a unit, the other whether anything
else is left. With them the nearest mantissa is known without the bits that are
gone, and the even one of two that are equally near.

The result has the height that `RoundsTo` gives the magnitude, so all facts
about rounding can be had from the relation and none from the shifts.

## Main definitions

* `Double.Stands`: Where a number lies, by a mantissa and its residual bits.
* `Double.Rounded`: An unpacked number has a height.

## Theorems

* `Double.Stands.shiftRight`: Shifts keep what the residual bits say.
* `Double.Stands.nearest`: The residual bits give the nearest mantissa.
* `Double.onGrid_target`: The target of the shift is the grid of the number.
* `Double.roundWithAccuracy_rounded`: Rounding gives the height of the number.
* `Double.round_rounded`: The same for a number that is known exactly.
-/

namespace Presolve

namespace Double

open Float.Model Float.Model.UnpackedFloat Scalar

/-- A mantissa with its two residual bits tells where a number lies: at the
    mantissa, at the point half-way to the next one, or strictly between. -/
def Stands (em : ExtendedMantissa) (y : ℚ) : Prop :=
  match em.roundBit, em.stickyBit with
  | false, false => y = em.mantissa
  | false, true => em.mantissa < y ∧ 2 * y < 2 * em.mantissa + 1
  | true, false => 2 * y = 2 * em.mantissa + 1
  | true, true => 2 * em.mantissa + 1 < 2 * y ∧ y < em.mantissa + 1

theorem Stands.floor {em : ExtendedMantissa} {y : ℚ} (h : Stands em y) :
    em.mantissa ≤ y ∧ y < em.mantissa + 1 := by
  rcases em with ⟨m, r, s⟩
  cases r <;> cases s <;> simp only [Stands] at h ⊢ <;> constructor <;> linarith

theorem Stands.nearest {em : ExtendedMantissa} {y : ℚ} (h : Stands em y) :
    Nearest y em.roundedMantissa := by
  rcases em with ⟨m, r, s⟩
  simp only [ExtendedMantissa.roundedMantissa]
  cases r <;> cases s <;> simp only [Stands, ExtendedMantissa.accuracy,
    Accuracy.roundToNearestEven] at h ⊢
  · rw [h]
    exact nearest_self m
  · exact ⟨by linarith, by linarith, fun h' => by linarith, fun h' => by linarith⟩
  · -- Half-way, the last bit of the mantissa decides.
    rcases Nat.mod_two_eq_zero_or_one m with hm | hm <;> rw [hm]
    · exact ⟨by push_cast; linarith, by push_cast; linarith, fun _ => by omega, fun _ => by omega⟩
    · exact ⟨by push_cast; linarith, by push_cast; linarith, fun _ => by omega, fun _ => by omega⟩
  · exact ⟨by push_cast; linarith, by push_cast; linarith, fun h' => by push_cast at h'; linarith,
      fun h' => by push_cast at h'; linarith⟩

/-- Dropping the last bit halves the number. The dropped bit becomes the round
    bit, and what was known beyond it is kept in the sticky bit. -/
theorem Stands.shiftRightOne {em : ExtendedMantissa} {y : ℚ} (h : Stands em y) :
    Stands em.shiftRightOne (y / 2) := by
  rcases em with ⟨m, r, s⟩
  have hsplit : (m : ℚ) = 2 * (m / 2 : ℕ) + (m % 2 : ℕ) := by
    exact_mod_cast (Nat.div_add_mod m 2).symm
  simp only [ExtendedMantissa.shiftRightOne]
  rcases Nat.mod_two_eq_zero_or_one m with hm | hm <;> rw [hm] at hsplit ⊢ <;>
    push_cast at hsplit
  · -- The dropped bit is zero.
    cases r <;> cases s <;> simp only [Stands, bne_self_eq_false, Bool.or_false, Bool.or_true,
      Bool.or_self] at h ⊢
    · linarith
    · exact ⟨by linarith, by linarith⟩
    · exact ⟨by linarith, by linarith⟩
    · exact ⟨by linarith, by linarith⟩
  · -- The dropped bit is one.
    have hone : ((1 : ℕ) != 0) = true := rfl
    cases r <;> cases s <;> simp only [Stands, hone, Bool.or_false, Bool.or_true,
      Bool.or_self] at h ⊢
    · linarith
    · exact ⟨by linarith, by linarith⟩
    · exact ⟨by linarith, by linarith⟩
    · exact ⟨by linarith, by linarith⟩

theorem Stands.shiftRight {em : ExtendedMantissa} {y : ℚ} (h : Stands em y) (n : ℕ) :
    Stands (em >>> n) (y / 2 ^ n) := by
  change Stands (n.repeat ExtendedMantissa.shiftRightOne em) _
  induction n with
  | zero => rwa [pow_zero, div_one]
  | succ k ih =>
      rw [Nat.repeat, pow_succ, ← div_div]
      exact ih.shiftRightOne

/-- What is known of a number before any shift. -/
theorem stands_exact (m : ℕ) : Stands (.ofMantissaAndAccuracy m .exact) m := rfl

theorem stands_fraction (q : ℕ) {num den : ℕ} (h : num < den) :
    Stands (.ofMantissaAndAccuracy q (accuracyOfFraction num den)) (q + num / den) := by
  have hden : (0 : ℚ) < den := by exact_mod_cast (by omega : 0 < den)
  have hlt : (num : ℚ) / den < 1 := (div_lt_one hden).mpr (by exact_mod_cast h)
  by_cases hzero : num = 0
  · rw [hzero, accuracyOfFraction, if_pos rfl, Nat.cast_zero, zero_div, add_zero]
    exact stands_exact q
  · have hpos : (0 : ℚ) < num / den := div_pos (by exact_mod_cast Nat.pos_of_ne_zero hzero) hden
    rw [accuracyOfFraction, if_neg hzero]
    -- The round bit compares the remainder with half of the divisor.
    rcases lt_trichotomy (2 * num) den with hhalf | hhalf | hhalf
    · have hcast : 2 * (num : ℚ) < den := by exact_mod_cast hhalf
      rw [compare_lt_iff_lt.mpr hhalf]
      have : 2 * ((num : ℚ) / den) < 1 := by rw [← mul_div_assoc, div_lt_one hden]; exact hcast
      simp only [ExtendedMantissa.ofMantissaAndAccuracy, Stands]
      exact ⟨by linarith, by linarith⟩
    · have hcast : 2 * (num : ℚ) = den := by exact_mod_cast hhalf
      rw [compare_eq_iff_eq.mpr hhalf]
      have : 2 * ((num : ℚ) / den) = 1 := by rw [← mul_div_assoc, hcast, div_self hden.ne']
      simp only [ExtendedMantissa.ofMantissaAndAccuracy, Stands]
      linarith
    · have hcast : (den : ℚ) < 2 * num := by exact_mod_cast hhalf
      rw [compare_gt_iff_gt.mpr hhalf]
      have : 1 < 2 * ((num : ℚ) / den) := by rw [← mul_div_assoc, one_lt_div hden]; exact hcast
      simp only [ExtendedMantissa.ofMantissaAndAccuracy, Stands]
      exact ⟨by linarith, by linarith⟩

/-- A magnitude lies between the powers of two around its total exponent. -/
theorem lt_two_zpow {x : ℚ} {m : ℕ} {e : ℤ} (h : x / 2 ^ e < m + 1) :
    x < 2 ^ totalExponent m e := by
  have hle : (m : ℚ) + 1 ≤ 2 ^ (m.log2 + 1) := by exact_mod_cast Nat.lt_log2_self
  rw [totalExponent, add_comm _ e, show e + ((m.log2 : ℤ) + 1) = e + (m.log2 + 1 : ℕ) by
    push_cast; ring, zpow_add_natCast, ← div_lt_iff₀ (by positivity)]
  exact h.trans_le hle

theorem two_zpow_le {x : ℚ} {m : ℕ} {e : ℤ} (hm : 0 < m) (h : m ≤ x / 2 ^ e) :
    2 ^ (totalExponent m e - 1) ≤ x := by
  have hle : (2 : ℚ) ^ m.log2 ≤ m := by exact_mod_cast Nat.log2_self_le hm.ne'
  rw [totalExponent, show (m.log2 : ℤ) + 1 + e - 1 = e + (m.log2 : ℕ) by ring, zpow_add_natCast,
    ← le_div_iff₀ (by positivity)]
  exact hle.trans h

theorem targetExponent_eq (m : ℕ) (e : ℤ) :
    Format.binary64.targetExponent (totalExponent m e)
      = max ((m.log2 : ℤ) + 1 + e - 53) (-1074) := by
  have hmin : Format.binary64.minExponent = -1074 := by decide
  have hbits : (Format.binary64.mantissaBits : ℤ) = 53 := by decide
  rw [Format.targetExponent, totalExponent, hmin, hbits]

/-- The target of a rounding is the grid of the number rounded. The number is
    known by its integral part in units of `2 ^ e`; a part of zero says too
    little unless the grid is the least one. -/
theorem onGrid_target {x : ℚ} {m : ℕ} {e : ℤ} (hfloor : m ≤ x / 2 ^ e ∧ x / 2 ^ e < m + 1)
    (hm : 0 < m ∨ e ≤ -1074) :
    OnGrid x (Format.binary64.targetExponent (totalExponent m e)) := by
  refine ⟨?_, ?_, ?_⟩
  · rw [targetExponent_eq]
    exact le_max_right _ _
  · refine (lt_two_zpow hfloor.2).trans_le (zpow_le_zpow_right₀ (by norm_num) ?_)
    rw [targetExponent_eq, totalExponent]
    omega
  · -- On a grid above the least one the number fills its mantissa.
    rw [targetExponent_eq]
    by_cases hleast : (m.log2 : ℤ) + 1 + e - 53 ≤ -1074
    · exact Or.inl (max_eq_right hleast)
    · right
      have hpos : 0 < m := by
        rcases Nat.eq_zero_or_pos m with hzero | hpos
        · rw [hzero, Nat.log2_zero] at hleast
          omega
        · exact hpos
      rw [max_eq_left (by omega), show (m.log2 : ℤ) + 1 + e - 53 + 52 = totalExponent m e - 1 by
        rw [totalExponent]; ring]
      exact two_zpow_le hpos hfloor.1

/-- A magnitude rounded to height `k`, as an unpacked number with sign `s`. The
    exponent may still be too large to be packed. -/
inductive Rounded (s : Sign) : ℤ → UnpackedFloat → Prop
  | zero : Rounded s 0 (.zero s)
  | finite {m : ℕ} {e : ℤ} (hm : 0 < m) : Normal m e → Rounded s (height m e) (.finite s m e hm)

/-- The last step of a rounding, which shifts once more if rounding up has filled
    the mantissa. -/
def settled (s : Sign) (n : ℕ) (t : ℤ) : UnpackedFloat :=
  let (em, e) := shiftToTargetExponent Format.binary64 n t .exact
  if h : em.mantissa = 0 then .zero s else .finite s em.mantissa e (Nat.pos_of_ne_zero h)

/-- The shift after rounding up does not change the height. -/
theorem settled_rounded (s : Sign) {n : ℕ} {t : ℤ} (ht : -1074 ≤ t) (hn : n ≤ 2 ^ 53)
    (hfull : 2 ^ 52 ≤ n ∨ t = -1074) : Rounded s (height n t) (settled s n t) := by
  rcases hn.lt_or_eq with hlt | rfl
  · -- The point needs no shift, its grid being wide enough already.
    have hlog : n.log2 < 53 := by
      by_cases hzero : n = 0
      · rw [hzero, Nat.log2_zero]
        omega
      · exact (Nat.log2_lt hzero).mpr hlt
    have hshift : (Format.binary64.targetExponent (totalExponent n t) - t).toNat = 0 := by
      rw [targetExponent_eq]
      omega
    have hsettled : settled s n t
        = if h : n = 0 then .zero s else .finite s n (t + (0 : ℕ)) (Nat.pos_of_ne_zero h) := by
      simp only [settled, shiftToTargetExponent, shiftToExponent, hshift]
      rfl
    rw [hsettled, Nat.cast_zero, add_zero]
    by_cases hzero : n = 0
    · have hleast : t = -1074 := hfull.resolve_left (by omega)
      rw [dif_pos hzero, hzero, hleast]
      exact Rounded.zero
    · rw [dif_neg hzero]
      exact Rounded.finite (Nat.pos_of_ne_zero hzero) ⟨ht, hlt, hfull⟩
  · -- A full mantissa is halved on the next grid.
    have hshift : (Format.binary64.targetExponent (totalExponent (2 ^ 53) t) - t).toNat = 1 := by
      rw [targetExponent_eq, Nat.log2_two_pow]
      omega
    have hsettled : settled s (2 ^ 53) t = .finite s (2 ^ 52) (t + (1 : ℕ)) (by decide) := by
      simp only [settled, shiftToTargetExponent, shiftToExponent, hshift]
      rfl
    have hheight : height (2 ^ 53) t = height (2 ^ 52) (t + (1 : ℕ)) := by
      simp only [height]
      omega
    rw [hsettled, hheight]
    exact Rounded.finite (by decide) ⟨by omega, by decide, Or.inl (le_refl _)⟩

theorem mantissa_ofMantissaAndAccuracy (m : ℕ) (acc : Accuracy) :
    (ExtendedMantissa.ofMantissaAndAccuracy m acc).mantissa = m := by
  cases acc with
  | exact => rfl
  | inexact o => cases o <;> rfl

/-- Rounding a magnitude that is known up to its residual bits. Bits are only
    ever dropped here, so the number must come with enough of them. -/
theorem roundWithAccuracy_rounded (s : Sign) {x : ℚ} {m : ℕ} {e : ℤ} {acc : Accuracy}
    (h : Stands (.ofMantissaAndAccuracy m acc) (x / 2 ^ e)) (hm : 0 < m ∨ e ≤ -1074)
    (hle : e ≤ Format.binary64.targetExponent (totalExponent m e)) :
    ∃ k, RoundsTo x k ∧ Rounded s k (roundWithAccuracy Format.binary64 s m e acc) := by
  have hfloor := h.floor
  rw [mantissa_ofMantissaAndAccuracy] at hfloor
  have hgrid := onGrid_target hfloor hm
  set t := Format.binary64.targetExponent (totalExponent m e) with ht
  set n := (ExtendedMantissa.ofMantissaAndAccuracy m acc >>> (t - e).toNat).roundedMantissa with hn
  have hexp : e + ((t - e).toNat : ℤ) = t := by omega
  -- The shift brings the number onto its grid, and the point nearest to it is taken.
  have hnear : Nearest (x / 2 ^ t) n := by
    have hshift := (h.shiftRight (t - e).toNat).nearest
    rwa [div_div, mul_comm, ← zpow_add_natCast, hexp] at hshift
  have hround : roundWithAccuracy Format.binary64 s m e acc = settled s n t := by
    rw [← hexp]
    rfl
  refine ⟨height n t, ⟨t, n, hgrid, hnear, rfl⟩, ?_⟩
  rw [hround]
  refine settled_rounded s hgrid.least (hnear.le_of_le (by exact_mod_cast hgrid.div_lt.le)) ?_
  by_cases hleast : t = -1074
  · exact Or.inr hleast
  · exact Or.inl (hnear.ge_of_ge (by exact_mod_cast hgrid.le_div hleast))

theorem log2_shiftLeft {m : ℕ} (hm : 0 < m) (d : ℕ) : (m <<< d).log2 = m.log2 + d := by
  rw [Nat.shiftLeft_eq, Nat.log2_eq_iff (Nat.mul_pos hm (Nat.two_pow_pos d)).ne', pow_add,
    show m.log2 + d + 1 = m.log2 + 1 + d by omega, pow_add]
  refine ⟨Nat.mul_le_mul_right _ (Nat.log2_self_le hm.ne'), ?_⟩
  exact Nat.mul_lt_mul_of_pos_right Nat.lt_log2_self (Nat.two_pow_pos d)

/-- Rounding a magnitude that is known exactly, first giving it the bits that it
    needs. -/
theorem round_rounded (s : Sign) {m : ℕ} (e : ℤ) (hm : 0 < m) :
    ∃ k, RoundsTo (m * 2 ^ e) k ∧ Rounded s k (UnpackedFloat.round Format.binary64 s m e) := by
  set d := (e - Format.binary64.targetExponent (totalExponent m e)).toNat with hd
  have hround : UnpackedFloat.round Format.binary64 s m e
      = roundWithAccuracy Format.binary64 s (m <<< d) (e - d) .exact := rfl
  have hpos : 0 < m <<< d := by
    rw [Nat.shiftLeft_eq]
    exact Nat.mul_pos hm (Nat.two_pow_pos d)
  have hvalue : (m : ℚ) * 2 ^ e / 2 ^ (e - (d : ℤ)) = (m <<< d : ℕ) := by
    rw [Nat.shiftLeft_eq, div_eq_iff (by positivity)]
    push_cast
    rw [mul_assoc, ← zpow_add_natCast, sub_add_cancel]
  rw [hround]
  -- The bits added are zeros, so the number is still known exactly.
  refine roundWithAccuracy_rounded s ?_ (Or.inl hpos) ?_
  · rw [hvalue]
    exact stands_exact _
  · rw [targetExponent_eq, log2_shiftLeft hm]
    rw [targetExponent_eq] at hd
    omega

end Double

end Presolve
