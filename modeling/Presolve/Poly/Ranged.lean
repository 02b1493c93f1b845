import Presolve.Poly.Error
import Presolve.Poly.Product
import Presolve.Poly.Value

/-!
# Ranged Polynomials

A polynomial held between optional numbers, the form in which every comparison
is stored. A comparison with a number keeps the polynomial as it is, constant
included. A comparison of two polynomials moves the right one to the left with
every sign turned around and compares with zero.

## Main definitions

* `Ranged`: A body and its bounds.
* `Ranged.ofBounds`: Infinite bounds are taken for absent ones.
* `Ranged.isEquality`: Both bounds are present and equal.
* `Ranged.Holds`: The value of the body respects the bounds.
* `Poly.atMost`, `Poly.atLeast`, `Poly.exactly`: Comparisons with a number.
* `Poly.between`: A range, refused if its ends are in the wrong order.
* `Poly.le`, `Poly.ge`, `Poly.equal`: Comparisons of two polynomials.
-/

namespace Presolve

variable {α : Type}

/-- A polynomial held between optional numbers. -/
structure Ranged (α : Type) where
  body : Poly α
  bounds : Bounds α
  deriving BEq

namespace Ranged

variable [Scalar α]

/-- A body with the bounds given for it, infinite ones left out. -/
def ofBounds (body : Poly α) (bounds : Bounds α) : Ranged α := ⟨body, bounds.dropInfinite⟩

/-- The body is held at one number. -/
def isEquality (r : Ranged α) : Bool := r.bounds.isPoint

/-- An assignment puts the body within its bounds. -/
def Holds (x : Assignment α) (r : Ranged α) : Prop := r.bounds.Contains (r.body.value x)

end Ranged

namespace Poly

variable [Scalar α]

/-- At most the number `c`. -/
def atMost (p : Poly α) (c : α) : Ranged α := .ofBounds p ⟨none, some c⟩

/-- At least the number `c`. -/
def atLeast (p : Poly α) (c : α) : Ranged α := .ofBounds p ⟨some c, none⟩

/-- Equal to the number `c`. -/
def exactly (p : Poly α) (c : α) : Ranged α := .ofBounds p ⟨some c, some c⟩

/-- At least `lower` and at most `upper`. -/
def between (p : Poly α) (lower upper : α) : Except (PolyError α) (Ranged α) :=
  if upper < lower then
    .error (.invalidRange lower upper)
  else
    .ok (.ofBounds p ⟨some lower, some upper⟩)

/-- At most the value of `q`. -/
def le (p q : Poly α) : Ranged α := (p - q).atMost 0

/-- At least the value of `q`. -/
def ge (p q : Poly α) : Ranged α := (p - q).atLeast 0

/-- Equal to the value of `q`. -/
def equal (p q : Poly α) : Ranged α := (p - q).exactly 0

end Poly

end Presolve
