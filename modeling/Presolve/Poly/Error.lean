import Presolve.Text.Message

/-!
# Faults of Polynomials

What can go wrong while a polynomial is built, compared or reduced, with the
code and the text under which it is reported.

## Main definitions

* `PolyError`: The three faults.
* `PolyError.code`: A stable word for each of them.
* `PolyError.message`: The text shown to a reader.
-/

namespace Presolve

/-- The highest degree a polynomial can have. -/
def maxDegree : Nat := 3

/-- A fault of a polynomial. -/
inductive PolyError (α : Type) where
  /-- A product would have a term of this degree. -/
  | degreeOverflow (degree : Nat)
  /-- A number of a polynomial or of its linear form is not finite. -/
  | nonFinite (value : α)
  /-- A range was given with its ends in the wrong order. -/
  | invalidRange (lower upper : α)

namespace PolyError

/-- The code of a fault. -/
def code {α : Type} : PolyError α → String
  | degreeOverflow _ => "EXPR_DEGREE_OVERFLOW"
  | nonFinite _ => "EXPR_NON_FINITE_COEFFICIENT"
  | invalidRange _ _ => "EXPR_INVALID_RANGE"

/-- The text of a fault. -/
def message (e : PolyError Float) : String :=
  withCode e.code <|
    match e with
    | degreeOverflow degree =>
      "Product has degree " ++ toString degree ++ ", at most " ++ toString maxDegree
        ++ " is supported"
    | nonFinite value =>
      "Expression coefficient must be finite (got " ++ Layout.message.render value ++ ")"
    | invalidRange lower upper => Bounds.complaint "Range" ⟨some lower, some upper⟩

end PolyError

end Presolve
