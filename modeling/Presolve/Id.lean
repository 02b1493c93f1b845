/-!
# Identifiers

A model keeps its variables, constraints and blocks in three registries and
refers to their entries by position. A position is a 32-bit word, tagged with
the registry it belongs to, so an id of one registry cannot be used in another.

Handing out an id takes the number of entries so far modulo `2 ^ 32`. Below
that many entries the ids of a registry are exactly `0, 1, 2, …`.

## Main definitions

* `Registry`: The three registries of a model.
* `Id`: A position in one of them.
* `Id.index`: The position as a number.
* `Id.ofIndex`: The id of the entry at a position.

## Theorems

* `Id.index_ofIndex`: Below `2 ^ 32`, the id of a position names that position.
* `Id.ofIndex_index`: Every id is the id of its position.
* `Id.index_inj`: Two ids with one position are the same id.
-/

namespace Presolve

/-- The registries of a model, by what they hold. -/
inductive Registry where
  | vars
  | constraints
  | blocks
  deriving DecidableEq

/-- The position of an entry in the registry `r`. -/
structure Id (r : Registry) where
  val : UInt32
  deriving DecidableEq

/-- Names a decision variable. -/
abbrev VariableId := Id .vars

/-- Names a constraint. -/
abbrev ConstraintId := Id .constraints

/-- Names a block. -/
abbrev BlockId := Id .blocks

namespace Id

variable {r : Registry}

/-- The position as a natural number. -/
def index (id : Id r) : Nat := id.val.toNat

/-- The id of the entry at position `n`. -/
def ofIndex (n : Nat) : Id r := ⟨UInt32.ofNat n⟩

/-- Ids are ordered by position. -/
instance : Ord (Id r) := ⟨compareOn Id.val⟩

instance : Std.TransOrd (Id r) := inferInstanceAs (Std.TransCmp (compareOn Id.val))

instance : Std.LawfulEqOrd (Id r) where
  eq_of_compare {a b} h := by
    have hval : a.val = b.val := Std.LawfulEqOrd.eq_of_compare h
    cases a
    cases b
    exact congrArg Id.mk hval

/-- An id is written as its position. -/
instance : ToString (Id r) := ⟨fun id => toString id.index⟩

theorem index_ofIndex {n : Nat} (h : n < UInt32.size) : (ofIndex n : Id r).index = n :=
  UInt32.toNat_ofNat_of_lt' h

theorem ofIndex_index (id : Id r) : ofIndex id.index = id := by
  cases id
  simp only [index, ofIndex, UInt32.ofNat_toNat]

theorem index_inj {a b : Id r} (h : a.index = b.index) : a = b := by
  rw [← ofIndex_index a, ← ofIndex_index b, h]

end Id

end Presolve
