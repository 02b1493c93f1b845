import Presolve.Proofs.Scalar.Double

/-!
# Rounding to the Nearest Number

A rational number is rounded on a grid whose spacing is the power of two that
leaves its quotient with as many bits as a mantissa has, and never less than the
least spacing there is. On the grid it goes to the nearest point, and a number
half-way between two points goes to the even one.

The height of the result is given by the grid and the point alone. This holds
even where rounding up fills the mantissa and the number moves to the next grid:
the two ways to write it have the same height. Rounding is therefore a relation
between a rational number and a height, `RoundsTo`, and that it is monotone is
seen by comparing grids first and points second.

## Main definitions

* `Double.Nearest`: A grid point is nearest to a number given in grid units.
* `Double.OnGrid`: The spacing on which a magnitude is rounded.
* `Double.RoundsTo`: The height to which a magnitude is rounded.
* `Double.RoundsToRank`: The rank to which a signed number is rounded.

## Theorems

* `Double.Nearest.mono`: Going to the nearest point is monotone.
* `Double.OnGrid.mono`: Larger magnitudes have wider grids.
* `Double.RoundsTo.mono`: Rounding magnitudes is monotone.
* `Double.roundsTo_normal`: A number in canonical form is its own rounding.
* `Double.RoundsToRank.mono`: Rounding is monotone.
-/

namespace Presolve

namespace Double

/-- The point `n` is nearest to `y`, and is even if another one is as near. -/
structure Nearest (y : ℚ) (n : ℕ) : Prop where
  above : 2 * y ≤ 2 * n + 1
  below : 2 * n - 1 ≤ 2 * y
  even_of_above : 2 * y = 2 * n + 1 → n % 2 = 0
  even_of_below : 2 * n - 1 = 2 * y → n % 2 = 0

theorem nearest_self (n : ℕ) : Nearest n n where
  above := by linarith
  below := by linarith
  even_of_above h := by linarith
  even_of_below h := by linarith

theorem Nearest.mono {y z : ℚ} {n k : ℕ} (hy : Nearest y n) (hz : Nearest z k) (h : y ≤ z) :
    n ≤ k := by
  by_contra hlt
  have hsucc : (k : ℚ) + 1 ≤ n := by exact_mod_cast (by omega : k + 1 ≤ n)
  have hbelow := hy.below
  have habove := hz.above
  -- Both numbers are half-way between `k` and its successor `n`.
  have hn : (n : ℚ) = k + 1 := by linarith
  have heven := hy.even_of_below (by linarith)
  have heven' := hz.even_of_above (by linarith)
  have hnat : n = k + 1 := by exact_mod_cast hn
  omega

theorem Nearest.le_of_le {y : ℚ} {n k : ℕ} (hy : Nearest y n) (h : y ≤ k) : n ≤ k :=
  hy.mono (nearest_self k) h

theorem Nearest.ge_of_ge {y : ℚ} {n k : ℕ} (hy : Nearest y n) (h : k ≤ y) : k ≤ n :=
  (nearest_self k).mono hy h

/-- A magnitude is rounded on the grid with spacing `2 ^ t`. -/
structure OnGrid (x : ℚ) (t : ℤ) : Prop where
  least : -1074 ≤ t
  lt : x < 2 ^ (t + 53)
  ge : t = -1074 ∨ 2 ^ (t + 52) ≤ x

theorem OnGrid.mono {x y : ℚ} {t u : ℤ} (hx : OnGrid x t) (hy : OnGrid y u) (h : x ≤ y) :
    t ≤ u := by
  by_contra hlt
  have hleast := hy.least
  have hge := hx.ge.resolve_left (by omega)
  have hpow : (2 : ℚ) ^ (u + 53) ≤ 2 ^ (t + 52) :=
    zpow_le_zpow_right₀ (by norm_num) (by omega)
  have := hy.lt
  linarith

theorem zpow_add_natCast (t : ℤ) (n : ℕ) : (2 : ℚ) ^ (t + n) = 2 ^ n * 2 ^ t := by
  rw [zpow_add₀ (by norm_num), zpow_natCast, mul_comm]

/-- A number in grid units needs no more bits than a mantissa has. -/
theorem OnGrid.div_lt {x : ℚ} {t : ℤ} (h : OnGrid x t) : x / 2 ^ t < 2 ^ 53 := by
  rw [div_lt_iff₀ (by positivity), ← zpow_add_natCast]
  exact h.lt

/-- On all grids but the least a number in grid units fills a mantissa. -/
theorem OnGrid.le_div {x : ℚ} {t : ℤ} (h : OnGrid x t) (ht : t ≠ -1074) : 2 ^ 52 ≤ x / 2 ^ t := by
  rw [le_div_iff₀ (by positivity), ← zpow_add_natCast]
  exact h.ge.resolve_left ht

/-- A magnitude is rounded to the number of this height. -/
def RoundsTo (x : ℚ) (h : ℤ) : Prop :=
  ∃ t n, OnGrid x t ∧ Nearest (x / 2 ^ t) n ∧ h = height n t

theorem RoundsTo.nonneg {x : ℚ} {h : ℤ} (hx : RoundsTo x h) : 0 ≤ h := by
  rcases hx with ⟨t, n, hgrid, -, rfl⟩
  have := hgrid.least
  simp only [height]
  omega

theorem RoundsTo.mono {x y : ℚ} {h k : ℤ} (hx : RoundsTo x h) (hy : RoundsTo y k) (hle : x ≤ y) :
    h ≤ k := by
  rcases hx with ⟨t, n, hgrid, hnear, rfl⟩
  rcases hy with ⟨u, l, hgrid', hnear', rfl⟩
  rcases (hgrid.mono hgrid' hle).lt_or_eq with hlt | rfl
  · -- The wider grid starts where the narrower one ends.
    have hleast := hgrid.least
    have hn : n ≤ 2 ^ 53 := hnear.le_of_le (by exact_mod_cast hgrid.div_lt.le)
    have hl : 2 ^ 52 ≤ l := hnear'.ge_of_ge (by exact_mod_cast hgrid'.le_div (by omega))
    simp only [height]
    omega
  · have hdiv : x / 2 ^ t ≤ y / 2 ^ t := div_le_div_of_nonneg_right hle (by positivity)
    have := hnear.mono hnear' hdiv
    simp only [height]
    omega

/-- A number in canonical form is its own rounding. -/
theorem roundsTo_normal {m : ℕ} {e : ℤ} (h : Normal m e) : RoundsTo (m * 2 ^ e) (height m e) := by
  refine ⟨e, m, ⟨h.exponent_ge, ?_, ?_⟩, ?_, rfl⟩
  · have hm : (m : ℚ) < 2 ^ 53 := by exact_mod_cast h.mantissa_lt
    exact (mul_lt_mul_of_pos_right hm (by positivity)).trans_eq (zpow_add_natCast e 53).symm
  · refine h.full_or_least.symm.imp_right fun hfull => ?_
    have hm : (2 : ℚ) ^ 52 ≤ m := by exact_mod_cast hfull
    exact (zpow_add_natCast e 52).trans_le (mul_le_mul_of_nonneg_right hm (by positivity))
  · rw [mul_div_cancel_right₀ _ (by positivity)]
    exact nearest_self m

theorem roundsTo_zero : RoundsTo 0 0 := by
  refine ⟨-1074, 0, ⟨le_refl _, by positivity, Or.inl rfl⟩, ?_, by decide⟩
  rw [zero_div]
  exact nearest_self 0

/-- A signed number is rounded to this rank, either side of zero being rounded
    like the other. -/
structure RoundsToRank (x : ℚ) (k : ℤ) : Prop where
  pos : 0 ≤ x → RoundsTo x k
  neg : x ≤ 0 → RoundsTo (-x) (-k)

theorem RoundsToRank.mono {x y : ℚ} {k l : ℤ} (hx : RoundsToRank x k) (hy : RoundsToRank y l)
    (h : x ≤ y) : k ≤ l := by
  rcases le_total 0 x with hx0 | hx0
  · exact (hx.pos hx0).mono (hy.pos (hx0.trans h)) h
  · rcases le_total 0 y with hy0 | hy0
    · have hk := (hx.neg hx0).nonneg
      have hl := (hy.pos hy0).nonneg
      omega
    · have := (hy.neg hy0).mono (hx.neg hx0) (neg_le_neg h)
      omega

theorem roundsToRank_of_nonneg {x : ℚ} {k : ℤ} (h : RoundsTo x k) (hx : 0 ≤ x) :
    RoundsToRank x k := by
  refine ⟨fun _ => h, fun hx0 => ?_⟩
  have hzero : x = 0 := le_antisymm hx0 hx
  have hk : k = 0 := by
    have := h.nonneg
    have := h.mono roundsTo_zero hx0
    omega
  rw [hzero, hk, neg_zero, Int.neg_zero]
  exact roundsTo_zero

theorem RoundsToRank.neg_neg {x : ℚ} {k : ℤ} (h : RoundsToRank x k) : RoundsToRank (-x) (-k) := by
  refine ⟨fun hx => h.neg (by linarith), fun hx => ?_⟩
  rw [show - -x = x by ring, Int.neg_neg]
  exact h.pos (by linarith)

end Double

end Presolve
