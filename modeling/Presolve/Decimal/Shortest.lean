/-!
# Shortest Decimals

The fewest decimal digits that still identify a binary floating point number.

A finite number is `m * 2 ^ q`, and the reals that round to it form an interval
around it that reaches half way to each neighbour. The ends belong to the
interval exactly when `m` is even, since a half goes to the even neighbour, and
the lower half is only half as wide where `m` is the least of its binade. A
decimal identifies the number when it lies in that interval.

The search goes through the grids of one, two, … seventeen significant digits
and looks at the two points of each grid that enclose the number. The first grid
with a point inside wins; when both points are inside, the nearer one does.
Everything is a comparison of natural numbers after cross-multiplication, so no
step rounds.

## Main definitions

* `Decimal`: A significand and a power of ten.
* `Decimal.order`: The power of ten of the leading digit.
* `Decimal.normalize`: The same value without trailing zeros.
* `power`: A power with a natural number as its value.
* `Tie`: What to do when two decimals are equally near.
* `Binary`: A significand and a power of two, as a bit pattern encodes them.
* `Binary.Identifies`: A decimal rounds to the binary number.
* `Binary.onGrid`: The point chosen on one grid, if any is inside.
* `Binary.shortest`: The decimal with the fewest digits.
-/

namespace Presolve

/-- The number `significand * 10 ^ exponent`. -/
structure Decimal where
  significand : Nat
  exponent : Int
  deriving DecidableEq

namespace Decimal

/-- The significand in decimal digits, leading digit first. -/
def digits (d : Decimal) : List Char := Nat.toDigits 10 d.significand

/-- The power of ten of the leading digit. -/
def order (d : Decimal) : Int := d.exponent + d.digits.length - 1

/-- Move trailing zeros of a significand into the exponent. -/
def ofScaled (n : Nat) (k : Int) : Decimal :=
  if n ≠ 0 ∧ n % 10 = 0 then ofScaled (n / 10) (k + 1) else ⟨n, k⟩
termination_by n

/-- The same number with the shortest significand. -/
def normalize (d : Decimal) : Decimal := ofScaled d.significand d.exponent

end Decimal

/-- The power `base ^ k`, which is one if `k` is negative. -/
def power (base : Nat) (k : Int) : Nat := base.pow k.toNat

/-- Which of two equally near decimals to take. -/
inductive Tie where
  /-- The larger one. -/
  | up
  /-- The one with the even last digit. -/
  | even
  deriving DecidableEq

/-- The number `significand * 2 ^ exponent`, and whether its lower neighbour is
    at half the distance of its upper one. -/
structure Binary where
  significand : Nat
  exponent : Int
  narrowBelow : Bool := false
  deriving DecidableEq

namespace Binary

/-- The magnitude that a bit pattern of a finite number encodes. The exponent
    field sits above 52 bits of fraction, and a field of zero means that no
    leading one is implied. -/
def ofBits (bits : UInt64) : Binary :=
  let fraction := (bits &&& 0xfffffffffffff).toNat
  let field := (bits >>> 52 &&& 0x7ff).toNat
  if field = 0 then
    ⟨fraction, -1074, false⟩
  else
    ⟨0x10000000000000 + fraction, (field : Int) - 1075, fraction = 0 ∧ 1 < field⟩

/-- The factor that makes a significand at `10 ^ k` comparable with quarters of
    the binary unit. -/
def decimalScale (b : Binary) (k : Int) : Nat :=
  power 10 k * power 2 (2 - b.exponent)

/-- The factor that makes quarters of the binary unit comparable with a
    significand at `10 ^ k`. -/
def binaryScale (b : Binary) (k : Int) : Nat :=
  power 2 (b.exponent - 2) * power 10 (-k)

/-- The decimal `n * 10 ^ k` rounds to the binary number. -/
def Identifies (b : Binary) (n : Nat) (k : Int) : Prop :=
  let x := n * b.decimalScale k
  let low := (4 * b.significand - if b.narrowBelow then 1 else 2) * b.binaryScale k
  let high := (4 * b.significand + 2) * b.binaryScale k
  if b.significand % 2 = 0 then low ≤ x ∧ x ≤ high else low < x ∧ x < high

instance (b : Binary) (n : Nat) (k : Int) : Decidable (b.Identifies n k) := by
  unfold Identifies
  infer_instance

/-- The power of ten of the leading digit. The least positive number exceeds
    `10 ^ -324`, so its digits before the point can be counted after scaling by
    that power. -/
def order (b : Binary) : Int :=
  let scaled := b.significand * power 2 b.exponent * power 10 324 / power 2 (-b.exponent)
  (Nat.toDigits 10 scaled).length - 325

/-- The point on the grid of `n` significant digits that is to stand for the
    number, among the two that enclose it. -/
def onGrid (b : Binary) (tie : Tie) (n : Nat) : Option Decimal :=
  let k := b.order + 1 - n
  let unit := b.decimalScale k
  let value := 4 * b.significand * b.binaryScale k
  let below := value / unit
  let rest := 2 * (value % unit)
  let nearer :=
    if rest < unit then below
    else if unit < rest then below + 1
    else if tie = .even ∧ below % 2 = 0 then below
    else below + 1
  let chosen :=
    if ¬ b.Identifies (below + 1) k then below
    else if ¬ b.Identifies below k then below + 1
    else nearer
  if b.Identifies chosen k then some ⟨chosen, k⟩ else none

/-- All the digits of the number. A power of two below one is a power of five
    over a power of ten. -/
def exact (b : Binary) : Decimal :=
  ⟨b.significand * power 2 b.exponent * power 5 (-b.exponent), min b.exponent 0⟩

/-- The decimal with the fewest digits that rounds to the number. Seventeen
    digits suffice for every bit pattern. -/
def shortest (b : Binary) (tie : Tie) : Decimal :=
  (((List.range' 1 17).findSome? (b.onGrid tie ·)).getD b.exact).normalize

end Binary

end Presolve
