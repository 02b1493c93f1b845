import Presolve.Poly.Value

/-!
# Linear Forms

A constant plus a coefficient for each of some variables. A form that was
reached by merging has one entry for each variable, in the order in which the
variables first received a coefficient; `addTerms` is that merging.

A polynomial reduces either to such a form or, if a product of several unknowns
is left in it, to nothing better than the degree of that product. `Reduced` is
the answer to the question which of the two it is.

## Main definitions

* `LinearForm`: A constant and a list of variables with coefficients.
* `LinearForm.value`: What a form stands for.
* `LinearForm.singleTerm`: The term of a form that has exactly one.
* `addTerm`, `addTerms`: Adding to the coefficient of a variable.
* `Reduced`: A linear form, or the degree that prevents one.
-/

namespace Presolve

/-- A constant plus a multiple of each variable listed. -/
structure LinearForm (α : Type) where
  constant : α
  terms : List (VariableId × α)

namespace LinearForm

variable {α : Type}

/-- The only term, if there is exactly one. -/
def singleTerm (f : LinearForm α) : Option (VariableId × α) :=
  match f.terms with
  | [t] => some t
  | _ => none

variable [Scalar α]

/-- The constant plus the values of the terms. -/
def value (x : Assignment α) (f : LinearForm α) : α :=
  f.constant + f.terms.foldr (fun t s => t.2 * x t.1 + s) 0

end LinearForm

section Merging

variable {α : Type} [Scalar α]

/-- Add `k` to the coefficient of `v`. A variable without a coefficient gets one
    at the end of the list. -/
def addTerm (v : VariableId) (k : α) : List (VariableId × α) → List (VariableId × α)
  | [] => [(v, k)]
  | (w, c) :: rest => if w = v then (w, c + k) :: rest else (w, c) :: addTerm v k rest

/-- Merge contributions to variables from left to right. -/
def addTerms (contributions : List (VariableId × α)) : List (VariableId × α) :=
  contributions.foldl (fun terms t => addTerm t.1 t.2 terms) []

end Merging

/-- What a polynomial amounts to once the fixed variables are numbers. -/
inductive Reduced (α : Type) where
  /-- A constant plus multiples of variables. -/
  | linear (form : LinearForm α)
  /-- A product of this many unknowns is left. -/
  | nonlinear (degree : Nat)

namespace Reduced

variable {α : Type}

/-- The linear form, if there is one. -/
def form? : Reduced α → Option (LinearForm α)
  | linear form => some form
  | nonlinear _ => none

/-- The degree that prevents a linear form, if there is one. -/
def degree? : Reduced α → Option Nat
  | linear _ => none
  | nonlinear degree => some degree

end Reduced

end Presolve
