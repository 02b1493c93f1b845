import Presolve.Bounds
import Presolve.Decimal.Layout

/-!
# Messages of Faults

The two pieces of text that faults of different kinds have in common.

## Main definitions

* `withCode`: A message with the code of its fault.
* `Bounds.complaint`: The message about bounds that are not an interval.
-/

namespace Presolve

/-- The message of a fault follows its code in brackets. -/
def withCode (code text : String) : String := "[" ++ code ++ "] " ++ text

/-- The message about a pair of bounds that is not an interval. An absent side
    shows as the infinity it stands for. -/
def Bounds.complaint (subject : String) (b : Bounds Float) : String :=
  let lower := b.lower.elim Layout.message.negInfinity Layout.message.render
  let upper := b.upper.elim Layout.message.infinity Layout.message.render
  subject ++ " invalid: lower (" ++ lower ++ ") > upper (" ++ upper ++ ")"

end Presolve
