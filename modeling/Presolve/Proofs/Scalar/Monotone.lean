import Presolve.Proofs.Scalar.Arithmetic

/-!
# Monotone Arithmetic

Rounding is monotone, so subtracting a finite number and dividing by one keep
the order of double precision numbers. What is rounded still has to be packed
into bits. This loses nothing unless the number is too large, and then it
becomes infinite, as if rounded up to the end of the line. Infinite operands
stay at the ends of the line.

An operation that approximates a monotone function on finite numbers and keeps
the two infinities in their order is monotone itself. Differences are of this
kind, and so are quotients, where a negative divisor turns the order around.

## Main definitions

* `Double.Approximates`: A number is nearest to a rational number.
* `Double.Follows`: An operation approximates a function.

## Theorems

* `Double.repack_finite`: A number in canonical form can be packed.
* `Double.Approximates.mono`: Larger numbers have larger approximations.
* `Double.Follows.place_le`: An operation is as monotone as what it follows.
* `Double.sub_follows`, `Double.div_follows`: Differences and quotients follow
  those of rational numbers.
-/

namespace Presolve

namespace Double

open Float.Model Float.Model.UnpackedFloat Scalar

theorem le_of_height_le {m n : ℕ} {e f : ℤ} (h : Normal m e) (h' : Normal n f)
    (hle : height m e ≤ height n f) : (m : ℚ) * 2 ^ e ≤ n * 2 ^ f := by
  rcases lt_trichotomy e f with hlt | rfl | hgt
  · -- A mantissa is below twice one that is full.
    have hm : (m : ℚ) ≤ 2 ^ 53 := by exact_mod_cast h.mantissa_lt.le
    have hfull := h'.full_or_least.resolve_right (by have := h.exponent_ge; omega)
    have hn : (2 : ℚ) ^ 52 ≤ n := by exact_mod_cast hfull
    calc (m : ℚ) * 2 ^ e ≤ 2 ^ 53 * 2 ^ e := mul_le_mul_of_nonneg_right hm (by positivity)
      _ = 2 ^ 52 * 2 ^ (e + 1) := by rw [zpow_add₀ (by norm_num)]; ring
      _ ≤ 2 ^ 52 * 2 ^ f := mul_le_mul_of_nonneg_left
          (zpow_le_zpow_right₀ (by norm_num) (by omega)) (by positivity)
      _ ≤ n * 2 ^ f := mul_le_mul_of_nonneg_right hn (by positivity)
  · -- With one exponent the heights differ as the mantissas do.
    have hm : (m : ℚ) ≤ n := by
      simp only [height] at hle
      exact_mod_cast (by omega : m ≤ n)
    exact mul_le_mul_of_nonneg_right hm (by positivity)
  · have := height_lt_of_exponent_lt h' h hgt
    omega

/-- Finite numbers of larger rank stand for larger rational numbers. -/
theorem value_mono {u v : UnpackedFloat} (hu : Canonical u) (hv : Canonical v)
    (hu' : u.isFinite = true) (hv' : v.isFinite = true) (h : rank u ≤ rank v) :
    value u ≤ value v := by
  cases u with
  | notANumber => exact absurd hu' Bool.false_ne_true
  | infinity s => exact absurd hu' Bool.false_ne_true
  | zero s =>
      cases v with
      | notANumber => exact absurd hv' Bool.false_ne_true
      | infinity t => exact absurd hv' Bool.false_ne_true
      | zero t => exact le_refl _
      | finite t n f hn =>
          have hpos := height_pos hn hv.1
          cases t with
          | positive => simp only [value]; positivity
          | negative => simp only [rank, Sign.apply] at h; omega
  | finite s m e hm =>
      have hpos := height_pos hm hu.1
      cases v with
      | notANumber => exact absurd hv' Bool.false_ne_true
      | infinity t => exact absurd hv' Bool.false_ne_true
      | zero t =>
          cases s with
          | positive => simp only [rank, Sign.apply] at h; omega
          | negative => simp only [value, Left.neg_nonpos_iff]; positivity
      | finite t n f hn =>
          have hpos' := height_pos hn hv.1
          -- A positive number has no smaller rank than a negative one.
          cases s <;> cases t <;> simp only [rank, Sign.apply] at h
          · exact neg_le_neg (le_of_height_le hv.1 hu.1 (by omega))
          · exact (neg_nonpos.mpr (by positivity)).trans (by simp only [value]; positivity)
          · omega
          · exact le_of_height_le hu.1 hv.1 h

/-- What is left of an unpacked number after it is packed. -/
def repack (u : UnpackedFloat) : UnpackedFloat :=
  UnpackedFloat.unpack Format.binary64 (UnpackedFloat.pack Format.binary64 u)

/-- Packing cuts the leading bit off and unpacking puts it back. -/
theorem repack_normal (s : Sign) {m : ℕ} {e : ℤ} (hm : 0 < m) (hge : -1074 ≤ e) (he : e ≤ 971)
    (hfull : 2 ^ 52 ≤ m) (hlt : m < 2 ^ 53) :
    repack (.finite s m e hm) = .finite s m e hm := by
  set b := (e + (Format.binary64.exponentBias : ℤ) + (52 : ℕ)).toNat with hb
  have hbias : (Format.binary64.exponentBias : ℤ) = 1023 := by decide
  have hbound : ¬ 2 ^ 11 ≤ b + 1 := by omega
  have hlog : m.log2 + 1 = Format.binary64.mantissaBits := by
    rw [(Nat.log2_eq_iff hm.ne').mpr ⟨hfull, hlt⟩]
    rfl
  have hpack : UnpackedFloat.pack Format.binary64 (.finite s m e hm)
      = packComponents Format.binary64 s (BitVec.ofNat 11 b) (BitVec.ofNat 52 m) := by
    simp only [UnpackedFloat.pack]
    rw [if_neg hbound, if_pos hlog]
  -- The biased exponent is neither of the two that unpacking treats apart.
  have hexp : (BitVec.ofNat 11 b).toNat = b := by
    rw [BitVec.toNat_ofNat]
    omega
  have hlast : BitVec.ofNat 11 b ≠ -1#11 := by
    intro heq
    have hnat : (-1#11 : BitVec 11).toNat = 2047 := by decide
    rw [← heq] at hnat
    omega
  have hfirst : BitVec.ofNat 11 b ≠ 0#11 := by
    intro heq
    have hnat : (0#11 : BitVec 11).toNat = 0 := by decide
    rw [← heq] at hnat
    omega
  -- A mantissa of 53 bits starts with a one, so putting it back restores it.
  have hmantissa : (1#1 ++ BitVec.ofNat 52 m).toNat = m := by
    rw [toNat_leading_one, BitVec.toNat_ofNat]
    omega
  rw [repack, hpack]
  simp only [UnpackedFloat.unpack, unpackMantissa_packComponents, unpackExponent_packComponents,
    unpackSign_packComponents, Sign.ofBitVec_toBitVec]
  rw [if_neg hlast, if_neg hfirst]
  simp only [hmantissa, hexp]
  congr 1
  omega

/-- A number with the least exponent that does not fill its mantissa has no
    leading bit to cut off. -/
theorem repack_subnormal (s : Sign) {m : ℕ} (hm : 0 < m) (hlt : m < 2 ^ 52) :
    repack (.finite s m (-1074) hm) = .finite s m (-1074) hm := by
  have hlog : ¬ m.log2 + 1 = Format.binary64.mantissaBits := by
    have hbits : Format.binary64.mantissaBits = 53 := by decide
    have := (Nat.log2_lt hm.ne').mpr hlt
    omega
  have hpack : UnpackedFloat.pack Format.binary64 (.finite s m (-1074) hm)
      = packComponents Format.binary64 s 0#11 (BitVec.ofNat 52 m) := by
    simp only [UnpackedFloat.pack]
    rw [if_neg (by decide), if_neg hlog]
  have hmantissa : (BitVec.ofNat 52 m).toNat = m := by
    rw [BitVec.toNat_ofNat]
    omega
  have hzero : BitVec.ofNat 52 m ≠ 0#52 := by
    intro heq
    have hnat : (0#52 : BitVec 52).toNat = 0 := by decide
    rw [← heq] at hnat
    omega
  rw [repack, hpack]
  simp only [UnpackedFloat.unpack, unpackMantissa_packComponents, unpackExponent_packComponents,
    unpackSign_packComponents, Sign.ofBitVec_toBitVec]
  rw [if_neg (by decide), if_pos (by decide), dif_neg hzero]
  simp only [hmantissa]
  congr 1

theorem repack_finite (s : Sign) {m : ℕ} {e : ℤ} (hm : 0 < m) (h : Normal m e) (he : e ≤ 971) :
    repack (.finite s m e hm) = .finite s m e hm := by
  by_cases hfull : 2 ^ 52 ≤ m
  · exact repack_normal s hm h.exponent_ge he hfull h.mantissa_lt
  · have hleast := h.full_or_least.resolve_left hfull
    subst hleast
    exact repack_subnormal s hm (by omega)

/-- A number with too large an exponent becomes infinite. -/
theorem repack_overflow (s : Sign) {m : ℕ} {e : ℤ} (hm : 0 < m) (he : 971 < e) :
    repack (.finite s m e hm) = .infinity s := by
  have hbias : (Format.binary64.exponentBias : ℤ) = 1023 := by decide
  have hpack : UnpackedFloat.pack Format.binary64 (.finite s m e hm)
      = packedInfinity Format.binary64 s := by
    simp only [UnpackedFloat.pack]
    rw [if_pos]
    simp only [Nat.reducePow]
    omega
  rw [repack, hpack]
  cases s <;> rfl

/-- Whatever rounding gives can be packed, heights beyond that of infinity
    counting as it. -/
theorem Rounded.rank_repack {s : Sign} {k : ℤ} {u : UnpackedFloat} (h : Rounded s k u) :
    (repack u).isNaN = false ∧ rank (repack u) = s.apply (min top k) := by
  cases h with
  | zero => cases s <;> decide
  | @finite m e hm hnormal =>
      -- An exponent above 971 is too large, and so is the height then.
      by_cases he : e ≤ 971
      · have hlt := height_lt_top hnormal he
        rw [repack_finite s hm hnormal he, min_eq_right hlt.le]
        exact ⟨rfl, rfl⟩
      · have hfull := hnormal.full_or_least.resolve_right (by omega)
        have hge : top ≤ height m e := by
          simp only [top, height]
          omega
        rw [repack_overflow s hm (by omega), min_eq_left hge]
        exact ⟨rfl, rfl⟩

/-- The number nearest to a rational number, those beyond the largest finite
    number being infinite. -/
structure Approximates (f : Float) (x : ℚ) : Prop where
  isNumber : IsNumber f
  place_eq : ∃ k, RoundsToRank x k ∧ place f = max (-top) (min top k)

theorem Approximates.mono {f g : Float} {x y : ℚ} (hf : Approximates f x) (hg : Approximates g y)
    (h : x ≤ y) : f ≤ g := by
  rcases hf.place_eq with ⟨k, hk, hplace⟩
  rcases hg.place_eq with ⟨l, hl, hplace'⟩
  rw [le_iff, hplace, hplace']
  exact ⟨hf.isNumber, hg.isNumber, max_le_max_left _ (min_le_min_left _ (hk.mono hl h))⟩

theorem RoundedFrom.approximates {x : ℚ} {u : UnpackedFloat} (h : RoundedFrom x u) :
    Approximates (.ofModel (.pack u)) x := by
  rcases h with ⟨s, k, y, hy, hround, hu, rfl⟩
  have hk := hround.nonneg
  have htop := neg_top_lt_zero
  refine ⟨hu.rank_repack.1, s.apply k, ?_, hu.rank_repack.2.trans ?_⟩
  · cases s with
    | positive => exact roundsToRank_of_nonneg hround hy
    | negative => exact (roundsToRank_of_nonneg hround hy).neg_neg
  · cases s <;> simp only [Sign.apply] <;> omega

/-- An infinity is known by its place. -/
theorem unpack_eq_infinity {x : Float} {s : Sign} (h : place x = s.apply top) :
    x.toModel.unpack = .infinity s := by
  have hinf : x.toModel.unpack.isInf = true := by
    refine (isInfinite_iff x).mpr ?_
    cases s with
    | positive => exact Or.inl h
    | negative => exact Or.inr h
  cases hu : x.toModel.unpack with
  | infinity t =>
      rw [place, hu] at h
      cases s <;> cases t
      · rfl
      · exact absurd h (by decide)
      · exact absurd h (by decide)
      · rfl
  | notANumber => rw [hu] at hinf; exact absurd hinf Bool.false_ne_true
  | zero t => rw [hu] at hinf; exact absurd hinf Bool.false_ne_true
  | finite t m e hm => rw [hu] at hinf; exact absurd hinf Bool.false_ne_true

/-- A number that is at neither end of the line is finite. -/
theorem isFinite_of_place {x : Float} (hx : IsNumber x) (hlt : place x < top)
    (hgt : -top < place x) : isFinite x = true := by
  refine isFinite_iff.mpr ⟨hx, Bool.eq_false_iff.mpr fun hinf => ?_⟩
  rcases (isInfinite_iff x).mp hinf with h | h <;> omega

/-- Two numbers in order are finite but for an infinity at the outer end. -/
theorem le_cases {x y : Float} (h : x ≤ y) :
    x.toModel.unpack = .infinity .negative ∨ y.toModel.unpack = .infinity .positive ∨
      isFinite x = true ∧ isFinite y = true := by
  rcases (le_iff x y).mp h with ⟨hx, hy, hplace⟩
  rcases ((rank_bounds (canonical x)).1).eq_or_lt with hlow | hlow
  · exact Or.inl (unpack_eq_infinity hlow.symm)
  · rcases ((rank_bounds (canonical y)).2).eq_or_lt with hhigh | hhigh
    · exact Or.inr (Or.inl (unpack_eq_infinity hhigh))
    · exact Or.inr (Or.inr ⟨isFinite_of_place hx (hplace.trans_lt hhigh) hlow,
        isFinite_of_place hy hhigh (hlow.trans_le hplace)⟩)

theorem unpack_finite {x : Float} (h : isFinite x = true) : x.toModel.unpack.isFinite = true := by
  change (!x.toModel.unpack.isNaN && !x.toModel.unpack.isInf) = true at h
  cases hu : x.toModel.unpack with
  | infinity t => rw [hu] at h; exact absurd h Bool.false_ne_true
  | notANumber => rw [hu] at h; exact absurd h Bool.false_ne_true
  | zero t => rfl
  | finite t m e hm => rfl

theorem repack_infinity (s : Sign) : repack (.infinity s) = .infinity s := by
  cases s <;> rfl

/-- On finite numbers an operation approximates a function on rational numbers,
    and infinity it takes to infinity, with the sign `t` for a positive one. -/
structure Follows (op : Float → Float) (g : ℚ → ℚ) (t : Sign) : Prop where
  finite {x : Float} : isFinite x = true → Approximates (op x) (g (value x.toModel.unpack))
  infinite {x : Float} {s : Sign} :
    x.toModel.unpack = .infinity s → (op x).toModel.unpack = .infinity (s * t)

theorem Follows.isNumber {op : Float → Float} {g : ℚ → ℚ} {t : Sign} (h : Follows op g t)
    {x : Float} (hx : IsNumber x) : IsNumber (op x) := by
  by_cases hinf : isInfinite x = true
  · have hend : ∃ s, x.toModel.unpack = .infinity s := by
      rcases (isInfinite_iff x).mp hinf with h | h
      · exact ⟨.positive, unpack_eq_infinity h⟩
      · exact ⟨.negative, unpack_eq_infinity h⟩
    rcases hend with ⟨s, hs⟩
    change (op x).toModel.unpack.isNaN = false
    rw [h.infinite hs]
    rfl
  · rw [Bool.not_eq_true] at hinf
    exact (h.finite (isFinite_iff.mpr ⟨hx, hinf⟩)).isNumber

/-- Larger numbers have larger results on the side of the sign `t`. -/
theorem Follows.place_le {op : Float → Float} {g : ℚ → ℚ} {t : Sign} (h : Follows op g t)
    (hg : ∀ a b, a ≤ b → signed t (g a) ≤ signed t (g b)) {x y : Float} (hxy : x ≤ y) :
    t.apply (place (op x)) ≤ t.apply (place (op y)) := by
  have hplace := ((le_iff x y).mp hxy).2.2
  rcases le_cases hxy with hx | hy | ⟨hx, hy⟩
  · -- The smaller number is the lower end, and is taken to one of the ends.
    have hend : place (op x) = t.apply (-top) := by
      rw [place, h.infinite hx]
      cases t <;> rfl
    have hbounds := rank_bounds (canonical (op y))
    rw [hend, place]
    cases t <;> simp only [Sign.apply] <;> omega
  · -- The larger number is the upper end, and is taken to the other one.
    have hend : place (op y) = t.apply top := by
      rw [place, h.infinite hy]
      cases t <;> rfl
    have hbounds := rank_bounds (canonical (op x))
    rw [hend, place]
    cases t <;> simp only [Sign.apply] <;> omega
  · -- Both are finite, and both results approximate rational ones.
    have hvalue := hg _ _ (value_mono (canonical x) (canonical y) (unpack_finite hx)
      (unpack_finite hy) hplace)
    have hleft := h.finite hx
    have hright := h.finite hy
    cases t with
    | positive => exact ((le_iff _ _).mp (hleft.mono hright hvalue)).2.2
    | negative =>
        have hle := hright.mono hleft (neg_le_neg_iff.mp hvalue)
        exact Int.neg_le_neg ((le_iff _ _).mp hle).2.2

/-- Subtracting a finite number approximates the rational difference. -/
theorem sub_follows {c : Float} (hc : isFinite c = true) :
    Follows (· - c) (· - value c.toModel.unpack) .positive where
  finite hx :=
    (sub_rounded (canonical _) (canonical c) (unpack_finite hx) (unpack_finite hc)).approximates
  infinite := by
    intro x s hs
    have hsub : UnpackedFloat.sub Format.binary64 (.infinity s) c.toModel.unpack = .infinity s := by
      have hfinite := unpack_finite hc
      cases hu : c.toModel.unpack with
      | infinity t => rw [hu] at hfinite; exact absurd hfinite Bool.false_ne_true
      | notANumber => rw [hu] at hfinite; exact absurd hfinite Bool.false_ne_true
      | zero t => rfl
      | finite t m e hm => rfl
    change repack (UnpackedFloat.sub Format.binary64 x.toModel.unpack c.toModel.unpack) = _
    rw [hs, hsub, repack_infinity]
    cases s <;> rfl

/-- Dividing by a finite number that is not zero approximates the rational
    quotient. -/
theorem div_follows {k : Float} {t : Sign} {n : ℕ} {f : ℤ} {hn : 0 < n}
    (hk : k.toModel.unpack = .finite t n f hn) :
    Follows (· / k) (· / value (.finite t n f hn)) t where
  finite := by
    intro x hx
    have hne : value (.finite t n f hn) ≠ 0 := by
      cases t with
      | positive => simp only [value]; positivity
      | negative => simp only [value]; exact neg_ne_zero.mpr (by positivity)
    have hround := div_rounded (v := .finite t n f hn) (unpack_finite hx) rfl hne
    rw [← hk] at hround ⊢
    exact hround.approximates
  infinite := by
    intro x s hs
    have hdiv : UnpackedFloat.div Format.binary64 (.infinity s) (.finite t n f hn)
        = .infinity (s / t) := rfl
    change repack (UnpackedFloat.div Format.binary64 x.toModel.unpack k.toModel.unpack) = _
    rw [hs, hk, hdiv, repack_infinity]
    cases s <;> cases t <;> rfl

/-- A finite number with a sign is a mantissa and an exponent with that sign. -/
theorem unpack_eq_finite {k : Float} (hk : isFinite k = true) {t : Sign}
    (h : 0 < t.apply (place k)) : ∃ n f hn, k.toModel.unpack = .finite t n f hn := by
  have hfinite := unpack_finite hk
  rw [place] at h
  cases hu : k.toModel.unpack with
  | infinity s => rw [hu] at hfinite; exact absurd hfinite Bool.false_ne_true
  | notANumber => rw [hu] at hfinite; exact absurd hfinite Bool.false_ne_true
  | zero s =>
      rw [hu] at h
      cases t <;> exact absurd h (lt_irrefl 0)
  | finite s n f hn =>
      have hpos := height_pos hn (hu ▸ canonical k : Canonical (.finite s n f hn)).1
      rw [hu] at h
      cases s <;> cases t <;> simp only [rank, Sign.apply] at h
      · exact ⟨n, f, hn, rfl⟩
      · omega
      · omega
      · exact ⟨n, f, hn, rfl⟩

end Double

open Double in
/-- Double precision arithmetic is monotone. -/
instance : MonotoneScalar Float where
  sub_le_sub := by
    intro x y c h hc
    have hfollows := sub_follows hc
    rcases (Double.le_iff x y).mp h with ⟨hx, hy, -⟩
    refine (Double.le_iff _ _).mpr ⟨hfollows.isNumber hx, hfollows.isNumber hy, ?_⟩
    exact hfollows.place_le (fun _ _ h => sub_le_sub_right h _) h
  div_le_div := by
    intro x y k h hk hpos
    have hplace := ((Double.lt_iff 0 k).mp hpos).2.2
    rw [place_zero] at hplace
    rcases unpack_eq_finite (t := .positive) hk hplace with ⟨n, f, hn, hu⟩
    have hfollows := div_follows hu
    rcases (Double.le_iff x y).mp h with ⟨hx, hy, -⟩
    refine (Double.le_iff _ _).mpr ⟨hfollows.isNumber hx, hfollows.isNumber hy, ?_⟩
    exact hfollows.place_le (fun _ _ h => div_le_div_of_nonneg_right h (by
      simp only [value]; positivity)) h
  div_le_div_of_neg := by
    intro x y k h hk hneg
    have hplace := ((Double.lt_iff k 0).mp hneg).2.2
    rw [place_zero] at hplace
    rcases unpack_eq_finite (t := .negative) hk (neg_pos.mpr hplace) with ⟨n, f, hn, hu⟩
    -- The quotient follows with the other sign, which turns the order around.
    have hfollows := div_follows hu
    rcases (Double.le_iff x y).mp h with ⟨hx, hy, -⟩
    refine (Double.le_iff _ _).mpr ⟨hfollows.isNumber hy, hfollows.isNumber hx, ?_⟩
    refine neg_le_neg_iff.mp (hfollows.place_le (fun a b h => ?_) h)
    simp only [signed, value, div_neg, neg_neg]
    exact div_le_div_of_nonneg_right h (by positivity)

end Presolve
