import Presolve.Poly.Basic

/-!
# Values of Polynomials

What a polynomial stands for. Given a number for every variable, a term is its
coefficient times the numbers of its factors, and a polynomial is its constant
plus its terms, degree by degree. Read over `Rat` this is the ordinary value of
a polynomial, against which the operations on polynomials are to be judged.

## Main definitions

* `Assignment`: A number for every variable.
* `Monomial.value`: The value of a term.
* `Poly.value`: The value of a polynomial.
-/

namespace Presolve

/-- A number for every variable. -/
abbrev Assignment (α : Type) := VariableId → α

variable {α : Type} [Scalar α]

/-- The coefficient times the numbers of the factors. -/
def Monomial.value {n : Nat} (x : Assignment α) (t : Monomial α n) : α :=
  t.factors.toList.foldl (fun c v => c * x v) t.coefficient

/-- The sum of the values of some terms of one degree. -/
def Monomial.total {n : Nat} (x : Assignment α) (ts : List (Monomial α n)) : α :=
  ts.foldr (fun t s => t.value x + s) 0

/-- The constant plus the values of all terms. -/
def Poly.value (x : Assignment α) (p : Poly α) : α :=
  p.constant + Monomial.total x p.linear + Monomial.total x p.quadratic
    + Monomial.total x p.cubic

end Presolve
