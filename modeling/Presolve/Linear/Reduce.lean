import Presolve.Linear.Form
import Presolve.Poly.Error

/-!
# Reduction to a Linear Form

Some variables are fixed at known numbers, and for the purpose of a constraint
they are constants. Putting the numbers in turns every term of a polynomial into
a coefficient times the unknowns among its factors. With no unknown left the
term adds to the constant, with one it adds to the coefficient of that unknown,
and with more it is a genuine product. A product whose coefficient comes out as
zero says nothing and is left out, unknowns included, whereas a linear term
always mentions its variable.

Numbers that are not finite are refused: those written in the polynomial before
anything else, those that the fixed numbers overflow to only when a linear form
would be built from them.

The reduction used by a run can be replaced, so its type has a name.

## Main definitions

* `FixedValues`: The number a variable is fixed at, if it is.
* `Reduction`: Any way of reducing polynomials.
* `Monomial.folded`, `Monomial.unknowns`: The two halves of a term after the
  fixed numbers are put in.
* `Contribution`: What a term adds to the result.
* `Poly.contributions`: What all terms add, in written order.
* `LinearForm.ofContributions`: The form that the contributions add up to.
* `Poly.reduce`: The standard reduction.
-/

namespace Presolve

/-- The number a variable is fixed at, or `none` for an unknown. -/
abbrev FixedValues (α : Type) := VariableId → Option α

/-- A way of finding the linear form of a polynomial. -/
abbrev Reduction (α : Type) := Poly α → FixedValues α → Except (PolyError α) (Reduced α)

/-- No variable is fixed. -/
def FixedValues.none {α : Type} : FixedValues α := fun _ => Option.none

/-- What a term adds to the reduction of its polynomial. -/
inductive Contribution (α : Type) where
  /-- A number to the constant. -/
  | constant (c : α)
  /-- A number to the coefficient of a variable. -/
  | term (v : VariableId) (k : α)
  /-- A product of this many unknowns. -/
  | product (degree : Nat)

namespace Contribution

variable {α : Type}

/-- The number added to the constant. -/
def constant? : Contribution α → Option α
  | constant c => some c
  | _ => none

/-- The variable whose coefficient is added to, and the number added. -/
def term? : Contribution α → Option (VariableId × α)
  | term v k => some (v, k)
  | _ => none

/-- The number of unknowns multiplied. -/
def degree? : Contribution α → Option Nat
  | product degree => some degree
  | _ => none

end Contribution

variable {α : Type}

namespace Monomial

variable {n : Nat}

/-- The factors that are not fixed. -/
def unknowns (fixed : FixedValues α) (t : Monomial α n) : List VariableId :=
  t.factors.toList.filter fun v => (fixed v).isNone

variable [Scalar α]

/-- The coefficient times the numbers of the fixed factors, in written order. -/
def folded (fixed : FixedValues α) (t : Monomial α n) : α :=
  (t.factors.toList.filterMap fixed).foldl (· * ·) t.coefficient

/-- What the term adds, whatever its coefficient. -/
def contribution (fixed : FixedValues α) (t : Monomial α n) : Contribution α :=
  match t.unknowns fixed with
  | [] => .constant (t.folded fixed)
  | [v] => .term v (t.folded fixed)
  | vs => .product vs.length

/-- What each of some products adds. A product whose coefficient comes out as
    zero adds nothing. -/
def productContributions (fixed : FixedValues α) (ts : List (Monomial α n)) :
    List (Contribution α) :=
  (ts.filter fun t => !t.folded fixed == 0).map (contribution fixed)

end Monomial

variable [Scalar α]

/-- What the terms of a polynomial add, in written order. -/
def Poly.contributions (fixed : FixedValues α) (p : Poly α) : List (Contribution α) :=
  p.linear.map (Monomial.contribution fixed)
    ++ Monomial.productContributions fixed p.quadratic
    ++ Monomial.productContributions fixed p.cubic

/-- The linear form that contributions add up to, on top of a first constant. -/
def LinearForm.ofContributions (start : α) (cs : List (Contribution α)) : LinearForm α where
  constant := (cs.filterMap Contribution.constant?).foldl (· + ·) start
  terms := addTerms (cs.filterMap Contribution.term?)

/-- The numbers of a linear form, the constant first. -/
def LinearForm.numbers (f : LinearForm α) : List α := f.constant :: f.terms.map (·.2)

/-- The first number of a list that is not finite. -/
def firstNonFinite? (xs : List α) : Option α := xs.find? (!Scalar.isFinite ·)

/-- The standard reduction. Numbers written in the polynomial are checked first,
    then products are looked for, and the numbers of the linear form are checked
    only if there are none. -/
def Poly.reduce : Reduction α := fun p fixed =>
  match firstNonFinite? p.coefficients with
  | some x => .error (.nonFinite x)
  | none =>
    let cs := p.contributions fixed
    match (cs.filterMap Contribution.degree?).max? with
    | some degree => .ok (.nonlinear degree)
    | none =>
      let form := LinearForm.ofContributions p.constant cs
      match firstNonFinite? form.numbers with
      | some x => .error (.nonFinite x)
      | none => .ok (.linear form)

end Presolve
