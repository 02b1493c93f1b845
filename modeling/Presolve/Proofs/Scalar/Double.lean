import Mathlib
import Presolve.Proofs.Scalar.Order

/-!
# The Line of Double Precision

Double precision numbers as places on the line of integers. A finite number
is a mantissa and an exponent, and because it is kept in canonical form, with
the largest mantissa that fits, larger numbers have larger exponents first and
larger mantissas second. Counting the numbers from zero upwards therefore gives
each its `height`, which grows by one from each number to the next, and infinity
has the height after the last. The sign makes heights into `rank`s on both sides
of zero, the two zeros sharing rank zero.

What a comparison does on canonical forms is to compare ranks, so floating point
is an `OrderedScalar` with the integers as its line.

## Main definitions

* `Double.Canonical`: The forms that unpacking a number can give.
* `Double.height`: How many numbers there are between zero and a magnitude.
* `Double.rank`: The height with the sign.

## Theorems

* `Double.unpack_canonical`: Unpacking gives canonical forms.
* `Double.height_lt_of_exponent_lt`: A larger exponent outweighs any mantissa.
* `Double.compare_eq`: Comparing canonical forms compares ranks.
* `Double.rank_bounds`: Infinity bounds all ranks.
-/

namespace Presolve

namespace Double

open Float.Model Float.Model.UnpackedFloat Scalar

/-- A mantissa and an exponent in the only form a number has: the mantissa fills
    all its bits, or the exponent is the least there is. -/
structure Normal (m : Nat) (e : Int) : Prop where
  exponent_ge : -1074 ≤ e
  mantissa_lt : m < 2 ^ 53
  full_or_least : 2 ^ 52 ≤ m ∨ e = -1074

/-- The forms that unpacking gives. -/
def Canonical : UnpackedFloat → Prop
  | .finite _ m e _ => Normal m e ∧ e ≤ 971
  | _ => True

/-- How many magnitudes lie below this one. -/
def height (m : Nat) (e : Int) : Int := (e + 1074) * 2 ^ 52 + m

/-- The height of infinity. -/
def top : Int := 2047 * 2 ^ 52

/-- The place of a number on the line of integers. -/
def rank : UnpackedFloat → Int
  | .infinity s => s.apply top
  | .finite s m e _ => s.apply (height m e)
  | _ => 0

/-- Putting the leading bit back adds its weight. -/
theorem toNat_leading_one {n : Nat} (b : BitVec n) : (1#1 ++ b).toNat = 2 ^ n + b.toNat := by
  rw [BitVec.toNat_append, ← Nat.shiftLeft_add_eq_or_of_lt b.isLt, Nat.shiftLeft_eq]
  simp only [BitVec.toNat_ofNat, Nat.reducePow, Nat.one_mod, Nat.one_mul]

theorem unpack_canonical (b : BitVec Format.binary64.numBits) :
    Canonical (UnpackedFloat.unpack Format.binary64 b) := by
  have hexp := (unpackExponent b).isLt
  have hman := (unpackMantissa b).isLt
  -- The cases are those of the exponent: all ones, all zeros, and the rest.
  simp only [UnpackedFloat.unpack]
  split
  · split <;> trivial
  · rename_i hfinite
    have hlast : (unpackExponent b).toNat ≠ 2047 := by
      intro h
      exact hfinite (BitVec.eq_of_toNat_eq h)
    split
    · split
      · trivial
      · -- A subnormal number has the least exponent.
        rename_i hzero _
        rw [hzero]
        refine ⟨⟨?_, ?_, Or.inr ?_⟩, ?_⟩
        · decide
        · simp only at hman
          omega
        · decide
        · decide
    · -- A normal number has its leading bit put back.
      rename_i hnormal
      have hfirst : (unpackExponent b).toNat ≠ 0 := by
        intro h
        exact hnormal (BitVec.eq_of_toNat_eq h)
      have hbias : (Format.binary64.exponentBias : Int) = 1023 := by decide
      simp only [Canonical]
      rw [toNat_leading_one, hbias]
      simp only at hexp hman
      refine ⟨⟨?_, ?_, Or.inl ?_⟩, ?_⟩ <;> simp only at * <;> omega

theorem height_pos {m : Nat} {e : Int} (hm : 0 < m) (h : Normal m e) : 0 < height m e := by
  have := h.exponent_ge
  simp only [height]
  omega

theorem height_lt_top {m : Nat} {e : Int} (h : Normal m e) (he : e ≤ 971) : height m e < top := by
  have := h.mantissa_lt
  simp only [height, top]
  omega

/-- A larger exponent outweighs any mantissa, since the number it belongs to
    fills its mantissa. -/
theorem height_lt_of_exponent_lt {m n : Nat} {e f : Int} (h : Normal m e) (h' : Normal n f)
    (hlt : e < f) : height m e < height n f := by
  have hm := h.mantissa_lt
  have he := h.exponent_ge
  have hn : 2 ^ 52 ≤ n := h'.full_or_least.resolve_right (by omega)
  simp only [height]
  omega

theorem compare_height {m n : Nat} {e f : Int} (h : Normal m e) (h' : Normal n f) :
    (compare e f).then (compare m n) = compare (height m e) (height n f) := by
  rcases lt_trichotomy e f with hlt | heq | hgt
  · rw [compare_lt_iff_lt.mpr hlt, compare_lt_iff_lt.mpr (height_lt_of_exponent_lt h h' hlt)]
    rfl
  · -- With one exponent the mantissas decide.
    subst heq
    rw [compare_eq_iff_eq.mpr rfl, Ordering.eq_then]
    rcases lt_trichotomy m n with hlt | heq | hgt
    · rw [compare_lt_iff_lt.mpr hlt, compare_lt_iff_lt.mpr (by simp only [height]; omega)]
    · rw [compare_eq_iff_eq.mpr heq, compare_eq_iff_eq.mpr (by simp only [height]; omega)]
    · rw [compare_gt_iff_gt.mpr hgt, compare_gt_iff_gt.mpr (by simp only [height]; omega)]
  · rw [compare_gt_iff_gt.mpr hgt, compare_gt_iff_gt.mpr (height_lt_of_exponent_lt h' h hgt)]
    rfl

theorem compare_neg_neg (a b : Int) : compare (-a) (-b) = (compare a b).swap := by
  rcases lt_trichotomy a b with hlt | heq | hgt
  · rw [compare_lt_iff_lt.mpr hlt, compare_gt_iff_gt.mpr (by omega)]
    rfl
  · rw [compare_eq_iff_eq.mpr heq, compare_eq_iff_eq.mpr (by omega)]
    rfl
  · rw [compare_gt_iff_gt.mpr hgt, compare_lt_iff_lt.mpr (by omega)]
    rfl

theorem neg_top_lt_zero : -top < 0 := by decide

/-- The infinities are the ends of the line. -/
theorem rank_bounds {u : UnpackedFloat} (h : Canonical u) : -top ≤ rank u ∧ rank u ≤ top := by
  have htop := neg_top_lt_zero
  cases u with
  | finite s m e hm =>
      have hpos := height_pos hm h.1
      have hlt := height_lt_top h.1 h.2
      cases s <;> simp only [rank, Sign.apply] <;> omega
  | infinity s => cases s <;> simp only [rank, Sign.apply] <;> omega
  | notANumber => simp only [rank]; omega
  | zero s => simp only [rank]; omega

/-- Infinity lies beyond everything that is not an infinity of its own sign. -/
theorem compare_infinity (s : Sign) {v : UnpackedFloat} (hv : Canonical v)
    (hv' : v.isNaN = false) :
    (infinity s).compare v = some (compare (rank (infinity s)) (rank v)) := by
  have htop := neg_top_lt_zero
  cases v with
  | notANumber => exact absurd hv' (by decide)
  | infinity t => cases s <;> cases t <;> decide
  | zero t => cases s <;> cases t <;> decide
  | finite t n f hn =>
      -- A finite rank lies strictly between the ends.
      have hlt := height_lt_top hv.1 hv.2
      have hpos := height_pos hn hv.1
      cases s with
      | positive =>
          cases t <;> simp only [UnpackedFloat.compare, rank, Sign.apply] <;>
            rw [compare_gt_iff_gt.mpr (by omega)]
      | negative =>
          cases t <;> simp only [UnpackedFloat.compare, rank, Sign.apply] <;>
            rw [compare_lt_iff_lt.mpr (by omega)]

/-- The zeros lie between the numbers of either sign. -/
theorem compare_zero (s : Sign) {v : UnpackedFloat} (hv : Canonical v) (hv' : v.isNaN = false) :
    (zero s).compare v = some (compare (rank (zero s)) (rank v)) := by
  cases v with
  | notANumber => exact absurd hv' (by decide)
  | infinity t => cases s <;> cases t <;> decide
  | zero t => cases s <;> cases t <;> decide
  | finite t n f hn =>
      have hpos := height_pos hn hv.1
      cases t with
      | positive =>
          simp only [UnpackedFloat.compare, rank, Sign.apply]
          rw [compare_lt_iff_lt.mpr (by omega)]
      | negative =>
          simp only [UnpackedFloat.compare, rank, Sign.apply]
          rw [compare_gt_iff_gt.mpr (by omega)]

/-- Finite numbers of one sign compare as their heights do. -/
theorem compare_finite (s : Sign) {m : Nat} {e : Int} (hm : 0 < m) {v : UnpackedFloat}
    (hu : Canonical (.finite s m e hm)) (hv : Canonical v) (hv' : v.isNaN = false) :
    (finite s m e hm).compare v = some (compare (rank (finite s m e hm)) (rank v)) := by
  have hlt := height_lt_top hu.1 hu.2
  have hpos := height_pos hm hu.1
  cases v with
  | notANumber => exact absurd hv' (by decide)
  | infinity t =>
      cases t with
      | positive =>
          cases s <;> simp only [UnpackedFloat.compare, rank, Sign.apply] <;>
            rw [compare_lt_iff_lt.mpr (by omega)]
      | negative =>
          cases s <;> simp only [UnpackedFloat.compare, rank, Sign.apply] <;>
            rw [compare_gt_iff_gt.mpr (by omega)]
  | zero t =>
      cases s with
      | positive =>
          simp only [UnpackedFloat.compare, rank, Sign.apply]
          rw [compare_gt_iff_gt.mpr (by omega)]
      | negative =>
          simp only [UnpackedFloat.compare, rank, Sign.apply]
          rw [compare_lt_iff_lt.mpr (by omega)]
  | finite t n f hn =>
      -- Of one sign the heights decide, and of two signs the signs do.
      have hpos' := height_pos hn hv.1
      have hheight := compare_height hu.1 hv.1
      cases s <;> cases t <;> simp only [UnpackedFloat.compare, rank, Sign.apply]
      · rw [hheight, compare_neg_neg]
      · rw [compare_lt_iff_lt.mpr (by omega)]
      · rw [compare_gt_iff_gt.mpr (by omega)]
      · rw [hheight]

theorem compare_eq {u v : UnpackedFloat} (hu : Canonical u) (hv : Canonical v)
    (hu' : u.isNaN = false) (hv' : v.isNaN = false) :
    u.compare v = some (compare (rank u) (rank v)) := by
  cases u with
  | notANumber => exact absurd hu' (by decide)
  | infinity s => exact compare_infinity s hv hv'
  | zero s => exact compare_zero s hv hv'
  | finite s m e hm => exact compare_finite s hm hu hv hv'

theorem compare_nan {u v : UnpackedFloat} (h : u.isNaN = true ∨ v.isNaN = true) :
    u.compare v = none := by
  cases u <;> cases v <;> simp only [UnpackedFloat.isNaN, Bool.false_eq_true, or_self] at h <;> rfl

/-- The place of a number among the integers. -/
def place (x : Float) : Int := rank x.toModel.unpack

theorem canonical (x : Float) : Canonical x.toModel.unpack := unpack_canonical _

/-- The outcome of a comparison, for the three tests that ask for one. -/
theorem compare_eq_some_iff (x y : Float) (p : Ordering → Bool) :
    (x.toModel.unpack.compare y.toModel.unpack).any p = true ↔
      IsNumber x ∧ IsNumber y ∧ p (compare (place x) (place y)) = true := by
  -- A comparison with NaN has no outcome, so no test of it succeeds.
  by_cases hx : x.toModel.unpack.isNaN = true
  · rw [compare_nan (Or.inl hx)]
    refine iff_of_false Bool.false_ne_true fun h => ?_
    exact absurd (hx.symm.trans h.1) (by simp only [Bool.true_eq_false, not_false_eq_true])
  · by_cases hy : y.toModel.unpack.isNaN = true
    · rw [compare_nan (Or.inr hy)]
      refine iff_of_false Bool.false_ne_true fun h => ?_
      exact absurd (hy.symm.trans h.2.1) (by simp only [Bool.true_eq_false, not_false_eq_true])
    · rw [Bool.not_eq_true] at hx hy
      rw [compare_eq (canonical x) (canonical y) hx hy]
      exact ⟨fun h => ⟨hx, hy, h⟩, fun h => h.2.2⟩

theorem any_beq_some (o : Option Ordering) (a : Ordering) : (o == some a) = o.any (· == a) := by
  cases o <;> rfl

theorem le_iff (x y : Float) : x ≤ y ↔ IsNumber x ∧ IsNumber y ∧ place x ≤ place y := by
  have hmodel : x ≤ y ↔ (x.toModel.unpack.compare y.toModel.unpack).any (·.isLE) = true :=
    decide_eq_true_iff
  rw [hmodel, compare_eq_some_iff x y, Ordering.isLE_iff_ne_gt, compare_gt_iff_gt.not, not_lt]

theorem lt_iff (x y : Float) : x < y ↔ IsNumber x ∧ IsNumber y ∧ place x < place y := by
  have hmodel : x < y ↔ (x.toModel.unpack.compare y.toModel.unpack == some .lt) = true :=
    decide_eq_true_iff
  rw [hmodel, any_beq_some, compare_eq_some_iff x y, beq_iff_eq, compare_lt_iff_lt]

theorem beq_iff (x y : Float) : (x == y) = true ↔ IsNumber x ∧ IsNumber y ∧ place x = place y := by
  have hmodel : (x == y) = (x.toModel.unpack.compare y.toModel.unpack == some .eq) := rfl
  rw [hmodel, any_beq_some, compare_eq_some_iff x y, beq_iff_eq, compare_eq_iff_eq]

/-- Infinite numbers are those at either end of the line. -/
theorem isInfinite_iff (x : Float) : isInfinite x = true ↔ place x = top ∨ place x = -top := by
  have hcanonical := canonical x
  have htop := neg_top_lt_zero
  change x.toModel.unpack.isInf = true ↔ _
  unfold place
  cases hu : x.toModel.unpack with
  | notANumber => exact iff_of_false Bool.false_ne_true (by simp only [rank]; omega)
  | infinity s =>
      refine iff_of_true rfl ?_
      cases s with
      | positive => exact Or.inl rfl
      | negative => exact Or.inr rfl
  | zero s => exact iff_of_false Bool.false_ne_true (by simp only [rank]; omega)
  | finite s m e hm =>
      rw [hu] at hcanonical
      have hlt := height_lt_top hcanonical.1 hcanonical.2
      have hpos := height_pos hm hcanonical.1
      refine iff_of_false Bool.false_ne_true ?_
      cases s <;> simp only [rank, Sign.apply] <;> omega

theorem place_zero : place 0 = 0 := by decide

end Double

open Double in
/-- Double precision numbers lie on the line of integers. -/
instance : OrderedScalar Float where
  Line := ℤ
  place := Double.place
  le_iff := Double.le_iff _ _
  lt_iff := Double.lt_iff _ _
  beq_iff := Double.beq_iff _ _
  zero_finite := by decide
  isNumber_of_infinite := by
    intro x h
    change x.toModel.unpack.isInf = true at h
    change x.toModel.unpack.isNaN = false
    cases hu : x.toModel.unpack with
    | notANumber => rw [hu] at h; exact absurd h Bool.false_ne_true
    | infinity s => rfl
    | zero s => rfl
    | finite s m e hm => rfl
  le_infinite := by
    intro x y hinf hpos hy
    have hx := ((Double.lt_iff _ _).mp hpos).2.1
    have hplace : place (0 : Float) < place x := ((Double.lt_iff _ _).mp hpos).2.2
    have htop := (rank_bounds (canonical y)).2
    have hneg := neg_top_lt_zero
    -- Of the two ends of the line only the upper one is above zero.
    rw [place_zero] at hplace
    rcases (isInfinite_iff x).mp hinf with h | h
    · exact (Double.le_iff _ _).mpr ⟨hy, hx, h ▸ htop⟩
    · omega
  infinite_le := by
    intro x y hinf hneg hy
    have hx := ((Double.lt_iff _ _).mp hneg).1
    have hplace : place x < place (0 : Float) := ((Double.lt_iff _ _).mp hneg).2.2
    have htop := (rank_bounds (canonical y)).1
    have hneg := neg_top_lt_zero
    rw [place_zero] at hplace
    rcases (isInfinite_iff x).mp hinf with h | h
    · omega
    · exact (Double.le_iff _ _).mpr ⟨hx, hy, h ▸ htop⟩
  infinite_congr := by
    intro x y h
    rw [Bool.eq_iff_iff, isInfinite_iff, isInfinite_iff, ((Double.beq_iff _ _).mp h).2.2]

end Presolve
