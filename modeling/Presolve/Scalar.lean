/-!
# Scalars

The numbers a model is written in. Nothing in a model, in its expressions or in
a run over it looks inside a number: all of it goes through the operations
below, so one set of definitions serves two readings. With `Float` it is the
program that runs, with rounding, overflow, signed zeros and NaN. With `Rat` it
is the same program in exact arithmetic, where sums and products mean what they
say and no number fails to be finite.

The class carries operations and no laws. `Float` satisfies few of the laws of
an ordered field, so a statement that needs one names it.

## Main definitions

* `Scalar`: The operations, with the two tests for values that are not finite.
* `Scalar.isFinite`: Neither NaN nor infinite.
* `Scalar.abs`: Distance from zero.
-/

namespace Presolve

/-- A type of numbers a model can be written in. -/
class Scalar (α : Type) extends
    Zero α, One α, Neg α, Add α, Sub α, Mul α, Div α, LT α, LE α, BEq α where
  /-- The strict order is decidable, as every comparison of a run needs. -/
  decidableLT : DecidableLT α
  /-- The value is no number at all. -/
  isNaN : α → Bool
  /-- The value lies beyond every finite number, on either side. -/
  isInfinite : α → Bool

attribute [reducible, instance] Scalar.decidableLT

namespace Scalar

variable {α : Type} [Scalar α]

/-- A number in the ordinary sense: neither NaN nor infinite. -/
def isFinite (x : α) : Bool := !isNaN x && !isInfinite x

/-- The distance of `x` from zero. -/
def abs (x : α) : α := if x < 0 then -x else x

end Scalar

/-- Binary floating point, the arithmetic a run is carried out in. -/
instance : Scalar Float where
  zero := 0
  one := 1
  decidableLT := inferInstance
  isNaN := Float.isNaN
  isInfinite := Float.isInf

/-- Exact arithmetic, in which every value is finite. -/
instance : Scalar Rat where
  zero := 0
  one := 1
  decidableLT := inferInstance
  isNaN _ := false
  isInfinite _ := false

end Presolve
