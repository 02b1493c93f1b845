import Presolve.Poly.Basic
import Presolve.Poly.Error

/-!
# Products of Polynomials

Two polynomials are multiplied by multiplying every term of the one with every
term of the other. The terms of degree `d` of the product come from the pairs of
degrees that add up to `d`, so each degree of the result is a sum of a few
`Poly.cross` lists, ordered by the degree of the left factor.

A constant takes part as a term of degree zero. A constant that is zero is no
term, so multiplying two variables gives one bilinear term and nothing else.

A product whose degree would exceed three is refused before anything is
multiplied. Below that bound no pair of terms is left out, as the pairs of
higher total degree have an empty side.

## Main definitions

* `Poly.cross`: The products of the terms of two given degrees.
* `Poly.mul`: The product, if its degree is at most three.
-/

namespace Presolve

namespace Poly

variable {α : Type} [Scalar α]

/-- The products of the terms of degree `i` of `p` with the terms of degree `j`
    of `q`. -/
def cross (p q : Poly α) (i j : Nat) : List (Monomial α (i + j)) :=
  (p.part i).flatMap fun s => (q.part j).map s.mul

/-- The product of two polynomials whose degrees add up to at most three. -/
def mul (p q : Poly α) : Except (PolyError α) (Poly α) :=
  if maxDegree < p.degree + q.degree then
    .error (.degreeOverflow (p.degree + q.degree))
  else
    .ok {
      constant := (p.cross q 0 0).foldl (fun c t => c + t.coefficient) 0
      linear := p.cross q 0 1 ++ p.cross q 1 0
      quadratic := p.cross q 0 2 ++ p.cross q 1 1 ++ p.cross q 2 0
      cubic := p.cross q 0 3 ++ p.cross q 1 2 ++ p.cross q 2 1 ++ p.cross q 3 0 }

end Poly

end Presolve
