import Presolve.Id
import Presolve.Scalar

/-!
# Polynomials of Degree at Most Three

The bodies of constraints. A polynomial keeps a constant and, for each of the
degrees one, two and three, the list of its terms as they were written. Nothing
is merged or dropped: a variable may occur in many terms, and a term with a zero
coefficient still refers to its variables. Merging is the business of the
reduction to a linear form.

All degrees share one type of term, so an operation that treats the lists alike
is stated once, and `Poly.part` numbers the lists by degree.

## Main definitions

* `Monomial`: A coefficient with a fixed number of variables.
* `Poly`: A constant and the terms of each degree.
* `Poly.part`: The terms of one degree, the constant as a term of degree zero.
* `Poly.degree`: The highest degree that has a term.
* `Poly.vars`: The variables referred to, in the order of first mention.
* `Poly.scale`, `Poly.add`, `Poly.sub`, `Poly.neg`: Arithmetic term by term.
* `Poly.sum`: The sum of a list.
-/

namespace Presolve

/-- A coefficient times `degree` variables, which may repeat. -/
structure Monomial (α : Type) (degree : Nat) where
  factors : Vector VariableId degree
  coefficient : α
  deriving BEq

namespace Monomial

variable {α : Type} [Scalar α] {m n : Nat}

/-- Multiply the coefficient. -/
def scale (t : Monomial α n) (k : α) : Monomial α n := ⟨t.factors, t.coefficient * k⟩

/-- The product of two terms lists the variables of the first one first. -/
def mul (s : Monomial α m) (t : Monomial α n) : Monomial α (m + n) :=
  ⟨s.factors ++ t.factors, s.coefficient * t.coefficient⟩

end Monomial

/-- A polynomial of degree at most three, with its terms as written. -/
structure Poly (α : Type) where
  constant : α
  linear : List (Monomial α 1) := []
  quadratic : List (Monomial α 2) := []
  cubic : List (Monomial α 3) := []
  deriving BEq

namespace Poly

variable {α : Type}

/-- The polynomial without terms. -/
def ofConstant (c : α) : Poly α := { constant := c }

/-- A constant and a coefficient for each variable of a list. -/
def affine (terms : List (VariableId × α)) (c : α) : Poly α where
  constant := c
  linear := terms.map fun t => ⟨#v[t.1], t.2⟩

/-- The highest degree that has a term, zero if there is none. -/
def degree (p : Poly α) : Nat :=
  if !p.cubic.isEmpty then 3
  else if !p.quadratic.isEmpty then 2
  else if !p.linear.isEmpty then 1
  else 0

/-- The variables of all terms, one entry per factor, in written order. -/
def occurrences (p : Poly α) : List VariableId :=
  p.linear.flatMap (·.factors.toList) ++ p.quadratic.flatMap (·.factors.toList)
    ++ p.cubic.flatMap (·.factors.toList)

/-- The variables referred to, each at its first occurrence. -/
def vars (p : Poly α) : List VariableId := p.occurrences.eraseDups

/-- The numbers of the polynomial in written order, the constant first. -/
def coefficients (p : Poly α) : List α :=
  p.constant :: (p.linear.map (·.coefficient) ++ p.quadratic.map (·.coefficient)
    ++ p.cubic.map (·.coefficient))

variable [Scalar α]

instance : Inhabited (Poly α) := ⟨ofConstant 0⟩

/-- One variable with a coefficient, which may be zero. -/
def term (v : VariableId) (k : α) : Poly α := affine [(v, k)] 0

/-- One variable. -/
def var (v : VariableId) : Poly α := term v 1

/-- A multiple of the product of two variables. -/
def product (a b : VariableId) (k : α) : Poly α where
  constant := 0
  quadratic := [⟨#v[a, b], k⟩]

/-- The terms of degree `d`. The constant is a term of degree zero unless it is
    zero. -/
def part (p : Poly α) : (d : Nat) → List (Monomial α d)
  | 0 => if p.constant == 0 then [] else [⟨#v[], p.constant⟩]
  | 1 => p.linear
  | 2 => p.quadratic
  | 3 => p.cubic
  | _ + 4 => []

/-- Multiply every coefficient and the constant by `k`. -/
def scale (p : Poly α) (k : α) : Poly α where
  constant := p.constant * k
  linear := p.linear.map (·.scale k)
  quadratic := p.quadratic.map (·.scale k)
  cubic := p.cubic.map (·.scale k)

/-- The terms of both polynomials, those of the first one first in every
    degree. -/
def add (p q : Poly α) : Poly α where
  constant := p.constant + q.constant
  linear := p.linear ++ q.linear
  quadratic := p.quadratic ++ q.quadratic
  cubic := p.cubic ++ q.cubic

/-- Move the constant by `c`. -/
def addConstant (p : Poly α) (c : α) : Poly α := { p with constant := p.constant + c }

/-- Every sign turned around. -/
def neg (p : Poly α) : Poly α := p.scale (-1)

/-- The difference adds the negated second polynomial. -/
def sub (p q : Poly α) : Poly α := p.add q.neg

instance : Add (Poly α) := ⟨add⟩

instance : Sub (Poly α) := ⟨sub⟩

instance : Neg (Poly α) := ⟨neg⟩

/-- The sum of a list, taken from the left and starting from zero. -/
def sum (ps : List (Poly α)) : Poly α := ps.foldl (· + ·) default

end Poly

end Presolve
