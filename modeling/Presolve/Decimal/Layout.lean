import Presolve.Decimal.Shortest

/-!
# Layouts of Floating Point Text

How a floating point number is written out once its digits are known. The
shortest digits come from `Binary.shortest`; a `Layout` says where the point
goes, when an exponent is used, and how the numbers without digits are spelled.

Three kinds of output write numbers: message texts, the details of an event, and
the summary of a run. Each has its own layout, kept beside what it writes,
except for the one of message texts, which every error shares.

## Main definitions

* `Layout`: The decisions of one number format.
* `Layout.render`: A number in a format.
* `Layout.message`: The format of message texts.
-/

namespace Presolve

/-- The decisions of one format for floating point numbers. -/
structure Layout where
  /-- Which of two equally near shortest decimals is written. -/
  tie : Tie
  /-- The least and the greatest power of ten of a leading digit that is written
      without an exponent, or `none` if no exponent is ever used. -/
  positional : Option (Int × Int)
  /-- Numbers without a fractional part end in `.0`. -/
  pointZero : Bool
  /-- A positive exponent carries its sign. -/
  plusSign : Bool
  /-- The spelling of NaN. -/
  nan : String
  /-- The spelling of positive infinity. -/
  infinity : String
  /-- The spelling of negative infinity. -/
  negInfinity : String

namespace Layout

/-- Digits with the point put in place, for a number whose last digit counts
    `10 ^ k`. -/
def positionalText (l : Layout) (digits : List Char) (k : Int) : String :=
  let places := (-k).toNat
  if 0 ≤ k then
    String.ofList (digits ++ List.replicate k.toNat '0') ++ if l.pointZero then ".0" else ""
  else if places < digits.length then
    String.ofList (digits.take (digits.length - places)) ++ "."
      ++ String.ofList (digits.drop (digits.length - places))
  else
    "0." ++ String.ofList (List.replicate (places - digits.length) '0' ++ digits)

/-- Digits with the point behind the first one and the power of ten `e` of that
    digit after them. -/
def scientificText (l : Layout) (digits : List Char) (e : Int) : String :=
  let fraction := digits.drop 1
  String.ofList (digits.take 1)
    ++ (if fraction.isEmpty then "" else "." ++ String.ofList fraction)
    ++ (if l.plusSign ∧ 0 ≤ e then "e+" else "e") ++ toString e

/-- A decimal without its sign. -/
def magnitudeText (l : Layout) (d : Decimal) : String :=
  let withoutExponent : Bool :=
    match l.positional with
    | none => true
    | some (least, greatest) => d.significand = 0 ∨ least ≤ d.order ∧ d.order ≤ greatest
  if withoutExponent then
    l.positionalText d.digits d.exponent
  else
    l.scientificText d.digits d.order

/-- A number in this format. -/
def render (l : Layout) (x : Float) : String :=
  if x.isNaN then l.nan
  else if x.isInf then if x < 0 then l.negInfinity else l.infinity
  else
    let magnitude := Binary.ofBits x.toBits
    let decimal := if magnitude.significand = 0 then ⟨0, 0⟩ else magnitude.shortest l.tie
    (if x.toBits >>> 63 = 1 then "-" else "") ++ l.magnitudeText decimal

/-- Numbers in message texts never use an exponent, and an integral number has
    no point. -/
def message : Layout where
  tie := .up
  positional := none
  pointZero := false
  plusSign := false
  nan := "NaN"
  infinity := "inf"
  negInfinity := "-inf"

end Layout

end Presolve
