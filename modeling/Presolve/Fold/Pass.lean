import Presolve.Event
import Presolve.Fold.Error
import Presolve.Linear.Reduce

/-!
# Folding Passes

The settings of a run that folds constraints into bounds: how close to zero a
coefficient must be to carry no usable bound, whether nested blocks are visited,
and how bodies are reduced. A tolerance that is negative or not finite makes no
sense, so a `Pass` holds a proof that its own is neither, and the functions that
build one check it.

Passes can also be asked for by name. There is one name so far.

## Main definitions

* `FoldConfig`: A tolerance and whether to descend.
* `FoldConfig.Valid`: The tolerance is finite and not negative.
* `Pass`: Valid settings with a reduction.
* `Pass.ofReduction`, `Pass.ofConfig`: A pass for given settings.
* `Pass.standard`: The pass with the usual settings.
* `Pass.isDegenerate`: A coefficient counts as zero.
* `Pass.named`: The pass registered under a name.
-/

namespace Presolve

/-- What can be chosen about a run. -/
structure FoldConfig (α : Type) where
  /-- Coefficients closer to zero than this count as zero. -/
  zeroTolerance : α
  /-- Constraints in nested blocks are visited, not only those of the root. -/
  descendInto : Bool := true

namespace FoldConfig

/-- The tolerance is a finite number and not negative. -/
def Valid {α : Type} [Scalar α] (c : FoldConfig α) : Prop :=
  Scalar.isFinite c.zeroTolerance = true ∧ ¬ c.zeroTolerance < 0

instance {α : Type} [Scalar α] (c : FoldConfig α) : Decidable c.Valid :=
  inferInstanceAs (Decidable (_ ∧ _))

/-- A tolerance of `10 ^ -8`, with nested blocks. -/
def standard : FoldConfig Float where
  zeroTolerance := 1e-8

end FoldConfig

/-- The settings of a run. -/
structure Pass (α : Type) [Scalar α] where
  config : FoldConfig α
  reduce : Reduction α
  valid : config.Valid

namespace Pass

variable {α : Type} [Scalar α]

/-- A pass with its own way of reducing bodies. -/
def ofReduction (config : FoldConfig α) (reduce : Reduction α) :
    Except (FoldError α) (Pass α) :=
  if valid : config.Valid then
    .ok { config, reduce, valid }
  else
    .error (.invalidTolerance config.zeroTolerance)

/-- A pass with the standard reduction. -/
def ofConfig (config : FoldConfig α) : Except (FoldError α) (Pass α) :=
  ofReduction config Poly.reduce

/-- The pass with the usual settings. -/
def standard : Pass Float where
  config := .standard
  reduce := Poly.reduce
  valid := by decide

/-- The name under which every pass reports. -/
def name (_ : Pass α) : String := foldName

/-- A coefficient that is zero, or too close to zero, carries no bound. -/
def isDegenerate (p : Pass α) (k : α) : Bool :=
  k == 0 || decide (Scalar.abs k < p.config.zeroTolerance)

/-- The names of all registered passes. -/
def names : List String := [foldName]

/-- The pass registered under a name, with its usual settings. -/
def named (name : String) : Logged Float (Except (FoldError Float) (Pass Float)) :=
  if name = foldName then
    ⟨.ok standard, []⟩
  else
    ⟨.error (.unknownPass name), [.unknownPass name]⟩

end Pass

end Presolve
