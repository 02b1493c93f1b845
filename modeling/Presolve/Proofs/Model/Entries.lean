import Presolve.Model.Edit

/-!
# Entries of a Changed Model

What the registries hold after an entry was changed. A change of one entry
leaves all others and the other registries alone, and two changes of one entry
are one change by the composition.

## Theorems

* `Model.variableAt_eq_ok`, `Model.constraintAt_eq_ok`, `Model.blockAt_eq_ok`: An
  id has an entry if its position has one.
* `forall_getElem?_push`, `forall_getElem?_modify`: What holds of all entries.
* `Model.vars_modifyVariable`, `Model.constraints_modifyConstraint`: The entries
  after a change.
* `Model.blocks_modifyBlock_self`: The entry of a changed block.
* `Model.modifyVariable_modifyVariable`: Two changes of one variable.
* `Model.modifyVariable_congr`: A change is known by what it does to the entry.
-/

namespace Presolve

/-- What a registry holds it holds after an entry is added. -/
theorem getElem?_push_of_eq_some {β : Type} {xs : Array β} {i : Nat} {x : β} (y : β)
    (h : xs[i]? = some x) : (xs.push y)[i]? = some x := by
  have hi : i < xs.size := (Array.getElem?_eq_some_iff.mp h).1
  rw [Array.getElem?_push, if_neg (Nat.ne_of_lt hi), h]

/-- What holds of all entries and of a new one holds of all entries after it is added. -/
theorem forall_getElem?_push {β : Type} {P : β → Prop} {xs : Array β} {x : β}
    (hxs : ∀ (i : Nat) (y : β), xs[i]? = some y → P y) (hx : P x) :
    ∀ (i : Nat) (y : β), (xs.push x)[i]? = some y → P y := by
  intro i y hy
  rw [Array.getElem?_push] at hy
  split at hy
  · rwa [← Option.some.inj hy]
  · exact hxs i y hy

/-- What holds of all entries holds after a change of one if it is kept for that one. -/
theorem forall_getElem?_modify {β : Type} {P : β → Prop} {xs : Array β} {k : Nat} {f : β → β}
    (hxs : ∀ (i : Nat) (y : β), xs[i]? = some y → P y)
    (hf : ∀ y, xs[k]? = some y → P y → P (f y)) :
    ∀ (i : Nat) (y : β), (xs.modify k f)[i]? = some y → P y := by
  intro i y hy
  rw [Array.getElem?_modify] at hy
  -- The entry is the changed one or another one, which is as it was.
  by_cases hi : k = i
  · rw [if_pos hi, Option.map_eq_some_iff] at hy
    rcases hy with ⟨z, hz, rfl⟩
    exact hf z (hi ▸ hz) (hxs i z hz)
  · rw [if_neg hi] at hy
    exact hxs i y hy

namespace Model

variable {α : Type} {m : Model α}

theorem variableAt_eq_ok {id : VariableId} {v : Variable α} :
    m.variableAt id = .ok v ↔ m.vars[id.index]? = some v := by
  rw [variableAt]
  cases m.vars[id.index]? with
  | none => simp only [reduceCtorEq]
  | some w => simp only [Except.ok.injEq, Option.some.injEq]

theorem constraintAt_eq_ok {id : ConstraintId} {c : Constraint α} :
    m.constraintAt id = .ok c ↔ m.constraints[id.index]? = some c := by
  rw [constraintAt]
  cases m.constraints[id.index]? with
  | none => simp only [reduceCtorEq]
  | some d => simp only [Except.ok.injEq, Option.some.injEq]

theorem blockAt_eq_ok {id : BlockId} {b : Block} :
    m.blockAt id = .ok b ↔ m.blocks[id.index]? = some b := by
  rw [blockAt]
  cases m.blocks[id.index]? with
  | none => simp only [reduceCtorEq]
  | some d => simp only [Except.ok.injEq, Option.some.injEq]

@[simp] theorem vars_modifyConstraint (id : ConstraintId) (f : Constraint α → Constraint α) :
    (m.modifyConstraint id f).vars = m.vars := rfl

@[simp] theorem blocks_modifyConstraint (id : ConstraintId) (f : Constraint α → Constraint α) :
    (m.modifyConstraint id f).blocks = m.blocks := rfl

@[simp] theorem constraints_modifyVariable (id : VariableId) (f : Variable α → Variable α) :
    (m.modifyVariable id f).constraints = m.constraints := rfl

@[simp] theorem blocks_modifyVariable (id : VariableId) (f : Variable α → Variable α) :
    (m.modifyVariable id f).blocks = m.blocks := rfl

@[simp] theorem vars_modifyBlock (id : BlockId) (f : Block → Block) :
    (m.modifyBlock id f).vars = m.vars := rfl

@[simp] theorem constraints_modifyBlock (id : BlockId) (f : Block → Block) :
    (m.modifyBlock id f).constraints = m.constraints := rfl

@[simp] theorem size_vars_modifyVariable (id : VariableId) (f : Variable α → Variable α) :
    (m.modifyVariable id f).vars.size = m.vars.size := Array.size_modify

@[simp] theorem size_constraints_modifyConstraint (id : ConstraintId)
    (f : Constraint α → Constraint α) :
    (m.modifyConstraint id f).constraints.size = m.constraints.size := Array.size_modify

@[simp] theorem size_blocks_modifyBlock (id : BlockId) (f : Block → Block) :
    (m.modifyBlock id f).blocks.size = m.blocks.size := Array.size_modify

theorem vars_modifyVariable (id : VariableId) (f : Variable α → Variable α) (i : Nat) :
    (m.modifyVariable id f).vars[i]?
      = if id.index = i then m.vars[i]?.map f else m.vars[i]? := Array.getElem?_modify

theorem constraints_modifyConstraint (id : ConstraintId) (f : Constraint α → Constraint α)
    (i : Nat) :
    (m.modifyConstraint id f).constraints[i]?
      = if id.index = i then m.constraints[i]?.map f else m.constraints[i]? :=
  Array.getElem?_modify

theorem blocks_modifyBlock (id : BlockId) (f : Block → Block) (i : Nat) :
    (m.modifyBlock id f).blocks[i]?
      = if id.index = i then m.blocks[i]?.map f else m.blocks[i]? := Array.getElem?_modify

theorem blocks_modifyBlock_self {id : BlockId} {b : Block} (f : Block → Block)
    (h : m.blocks[id.index]? = some b) : (m.modifyBlock id f).blocks[id.index]? = some (f b) := by
  rw [blocks_modifyBlock, if_pos rfl, h, Option.map_some]

/-- A change of a variable is known by what it does to the entry. -/
theorem modifyVariable_congr {id : VariableId} {f g : Variable α → Variable α}
    (h : ∀ v, m.variableAt id = .ok v → f v = g v) :
    m.modifyVariable id f = m.modifyVariable id g := by
  -- The two registries are compared entry by entry.
  have hvars : m.vars.modify id.index f = m.vars.modify id.index g := by
    refine Array.ext_getElem? fun i => ?_
    rw [Array.getElem?_modify, Array.getElem?_modify]
    by_cases hi : id.index = i
    · rw [if_pos hi, if_pos hi]
      cases hv : m.vars[i]? with
      | none => rfl
      | some v =>
          rw [← hi, ← variableAt_eq_ok] at hv
          rw [Option.map_some, Option.map_some, h v hv]
    · rw [if_neg hi, if_neg hi]
  rw [modifyVariable, hvars, modifyVariable]

theorem modifyVariable_modifyVariable (id : VariableId) (f g : Variable α → Variable α) :
    (m.modifyVariable id f).modifyVariable id g = m.modifyVariable id fun v => g (f v) := by
  have hvars : (m.vars.modify id.index f).modify id.index g
      = m.vars.modify id.index fun v => g (f v) := by
    refine Array.ext_getElem? fun i => ?_
    rw [Array.getElem?_modify, Array.getElem?_modify, Array.getElem?_modify]
    by_cases hi : id.index = i
    · rw [if_pos hi, if_pos hi, if_pos hi, Option.map_map]
      rfl
    · rw [if_neg hi, if_neg hi, if_neg hi]
  rw [modifyVariable, modifyVariable, hvars, modifyVariable]

/-- A change that leaves the entry as it is changes nothing. -/
theorem modifyVariable_eq_self {id : VariableId} {f : Variable α → Variable α}
    (h : ∀ v, m.variableAt id = .ok v → f v = v) : m.modifyVariable id f = m := by
  have hvars : m.vars.modify id.index f = m.vars := by
    refine Array.ext_getElem? fun i => ?_
    rw [Array.getElem?_modify]
    by_cases hi : id.index = i
    · rw [if_pos hi]
      cases hv : m.vars[i]? with
      | none => rfl
      | some v =>
          rw [← hi, ← variableAt_eq_ok] at hv
          rw [Option.map_some, h v hv]
    · rw [if_neg hi]
  rw [modifyVariable, hvars]

theorem modifyVariable_modifyConstraint (var : VariableId) (f : Variable α → Variable α)
    (id : ConstraintId) (g : Constraint α → Constraint α) :
    (m.modifyConstraint id g).modifyVariable var f
      = (m.modifyVariable var f).modifyConstraint id g := rfl

theorem variableAt_modifyVariable_self {id : VariableId} {v : Variable α}
    (f : Variable α → Variable α) (h : m.variableAt id = .ok v) :
    (m.modifyVariable id f).variableAt id = .ok (f v) := by
  rw [variableAt_eq_ok] at h ⊢
  rw [vars_modifyVariable, if_pos rfl, h, Option.map_some]

end Model

end Presolve
