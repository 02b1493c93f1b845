import Presolve.Scalar

/-!
# Bounds

A variable and a constraint are both held between two optional numbers. An
absent side restricts nothing, and an infinite number on a side would say no
more than an absent one, so infinities are dropped where bounds are given as a
pair.

The two sides are treated alike throughout: `Side` names one of them, and what
differs between them is stated once, by `Side.tighter` and
`Side.isUnbounding`.

## Main definitions

* `Bounds`: An optional lower and an optional upper number.
* `Bounds.Contains`: A value respects the sides that are present.
* `Bounds.dropInfinite`: Infinite sides become absent.
* `Bounds.hasNaN`, `Bounds.crossed`: The two faults a pair can have.
* `Bounds.clamp`: The value within the bounds that a value is moved to.
* `Side`: Which of the two numbers is meant.
* `Side.scaled`: The side a bound lands on after division by a coefficient.
* `Side.tighter`: The more restrictive of two numbers on one side.
* `Side.isUnbounding`: The infinity that restricts nothing on a side.
-/

namespace Presolve

variable {α : Type}

/-- An optional number on each side. -/
structure Bounds (α : Type) where
  lower : Option α := none
  upper : Option α := none
  deriving BEq

/-- One side of an interval. -/
inductive Side where
  | lower
  | upper
  deriving DecidableEq

namespace Side

/-- The word for a side in reports and events. -/
def name : Side → String
  | lower => "lower"
  | upper => "upper"

/-- The opposite side. -/
def flip : Side → Side
  | lower => upper
  | upper => lower

variable [Scalar α]

/-- The side of `x` that a bound on this side of `k * x` restricts. Dividing by
    a negative `k` turns an inequality around. -/
def scaled (s : Side) (k : α) : Side := if 0 < k then s else s.flip

/-- The more restrictive of two bounds on this side, the first of two that are
    equal. -/
def tighter : Side → α → α → α
  | lower, a, b => if a < b then b else a
  | upper, a, b => if b < a then b else a

/-- The value is the infinity that, as a bound on this side, restricts
    nothing. -/
def isUnbounding : Side → α → Bool
  | lower, x => Scalar.isInfinite x && decide (x < 0)
  | upper, x => Scalar.isInfinite x && decide (0 < x)

end Side

namespace Bounds

/-- The number on one side. -/
def get (b : Bounds α) : Side → Option α
  | .lower => b.lower
  | .upper => b.upper

/-- Replace the number on one side. -/
def set (b : Bounds α) : Side → Option α → Bounds α
  | .lower, x => { b with lower := x }
  | .upper, x => { b with upper := x }

@[simp] theorem get_set_self (b : Bounds α) (s : Side) (x : Option α) : (b.set s x).get s = x := by
  cases s <;> rfl

@[simp] theorem get_set_flip (b : Bounds α) (s : Side) (x : Option α) :
    (b.set s x).get s.flip = b.get s.flip := by
  cases s <;> rfl

variable [Scalar α]

/-- The value lies within every side that is present. -/
def Contains (b : Bounds α) (x : α) : Prop :=
  (∀ l ∈ b.lower, l ≤ x) ∧ (∀ u ∈ b.upper, x ≤ u)

/-- Take infinite sides for absent ones. -/
def dropInfinite (b : Bounds α) : Bounds α where
  lower := b.lower.filter (!Scalar.isInfinite ·)
  upper := b.upper.filter (!Scalar.isInfinite ·)

/-- Some side holds NaN. -/
def hasNaN (b : Bounds α) : Bool := b.lower.any Scalar.isNaN || b.upper.any Scalar.isNaN

/-- Both sides are present, the lower number above the upper one. -/
def crossed (b : Bounds α) : Bool :=
  match b.lower, b.upper with
  | some l, some u => decide (u < l)
  | _, _ => false

/-- Move a value up to the lower bound and then down to the upper one. -/
def clamp (b : Bounds α) (x : α) : α :=
  let raised := b.lower.elim x fun l => if x < l then l else x
  b.upper.elim raised fun u => if u < raised then u else raised

/-- Both sides are present and equal. -/
def isPoint (b : Bounds α) : Bool :=
  match b.lower, b.upper with
  | some l, some u => l == u
  | _, _ => false

end Bounds

end Presolve
