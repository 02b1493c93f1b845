import Presolve.Proofs.Model.Change
import Presolve.Proofs.Model.Walk

/-!
# Adding a Constraint

What is the same in a model to which a constraint was added. The registries of
constraints and blocks both change, one by an entry at its end and the other by
an id at the end of one of its lists, so neither is an extension of the other as
a whole. What matters to a walk is still there, in the same order. The new
constraint may turn up anywhere in between, as its block may be any block, and a
walk that leaves it out is the walk there was before.

This needs that the new id is not that of an older constraint, so the registry
has to be smaller than the range of ids.

## Theorems

* `Model.modifyConstraint_withConstraint`: Entries there were before are changed
  before or after.
* `Model.opening_withConstraint`: What opening a block brings.
* `Model.activeConstraints_eq_filter_withConstraint`: The walk there was before.
-/

namespace Presolve

namespace Model

variable {α : Type} {m : Model α} {block : BlockId} {r : Ranged α} {id : ConstraintId}

theorem lt_size_of_isActive (h : m.isActive id = true) : id.index < m.constraints.size := by
  by_contra hge
  rw [isActive, Array.getElem?_eq_none (Nat.le_of_not_lt hge)] at h
  cases h

/-- The id of the next constraint is not in use. -/
theorem isActive_ofIndex_size (hsize : m.constraints.size < UInt32.size) :
    m.isActive (Id.ofIndex m.constraints.size) = false := by
  rw [← Bool.not_eq_true]
  intro h
  have hlt := lt_size_of_isActive h
  rw [Id.index_ofIndex hsize] at hlt
  exact hlt.false

theorem constraints_withConstraint (hid : id.index < m.constraints.size) :
    (m.withConstraint block r).constraints[id.index]? = m.constraints[id.index]? := by
  rw [withConstraint, constraints_modifyBlock, Array.getElem?_push_lt hid,
    Array.getElem?_eq_getElem hid]

theorem isActive_withConstraint (h : m.isActive id = true) :
    (m.withConstraint block r).isActive id = true := by
  rwa [isActive, constraints_withConstraint (lt_size_of_isActive h)]

theorem constraintAt_withConstraint (hid : id.index < m.constraints.size) :
    (m.withConstraint block r).constraintAt id = m.constraintAt id := by
  rw [constraintAt, constraintAt, constraints_withConstraint hid]

/-- A constraint there was before can be changed before or after one is added. -/
theorem modifyConstraint_withConstraint (hid : id.index < m.constraints.size)
    (f : Constraint α → Constraint α) :
    (m.withConstraint block r).modifyConstraint id f
      = (m.modifyConstraint id f).withConstraint block r := by
  have hpush (c : Constraint α) :
      (m.constraints.push c).modify id.index f = (m.constraints.modify id.index f).push c := by
    refine Array.ext_getElem? fun i => ?_
    rw [Array.getElem?_modify, Array.getElem?_push, Array.getElem?_push, Array.size_modify,
      Array.getElem?_modify]
    by_cases hi : i = m.constraints.size
    · -- The last entry is the new one, which has another position.
      rw [if_pos hi, if_pos hi, if_neg (hi ▸ hid.ne)]
    · rw [if_neg hi, if_neg hi]
  have hsize : (m.modifyConstraint id f).constraints.size = m.constraints.size :=
    size_constraints_modifyConstraint id f
  rw [withConstraint, withConstraint, hsize]
  simp only [modifyConstraint, modifyBlock, hpush]

/-- Opening a block brings what it did before, and after it perhaps the new
    constraint. -/
theorem opening_withConstraint (m : Model α) (block : BlockId) (r : Ranged α) (descend : Bool)
    (id : BlockId) :
    ∃ more, (∀ c ∈ more, c = Id.ofIndex m.constraints.size) ∧
      (m.withConstraint block r).opening descend id
        = ((m.opening descend id).1, (m.opening descend id).2 ++ more) := by
  rw [opening, opening, withConstraint, blocks_modifyBlock]
  by_cases hid : block.index = id.index
  · rw [if_pos hid]
    cases m.blocks[id.index]? with
    | none => exact ⟨[], List.forall_mem_nil _, rfl⟩
    | some b =>
        -- A block that is off hands out nothing, whatever it lists.
        cases hactive : b.active with
        | true =>
            refine ⟨[Id.ofIndex m.constraints.size], fun c hc => List.mem_singleton.mp hc, ?_⟩
            simp only [Option.map_some, Option.filter_some, hactive, if_true]
        | false =>
            refine ⟨[], List.forall_mem_nil _, ?_⟩
            simp only [Option.map_some, Option.filter_some, hactive, Bool.false_eq_true, if_false,
              List.append_nil]
  · rw [if_neg hid]
    exact ⟨[], List.forall_mem_nil _, by rw [List.append_nil]⟩

/-- The walk there was before is the walk over the constraints there were before. -/
theorem activeConstraints_eq_filter_withConstraint (hsize : m.constraints.size < UInt32.size)
    (descend : Bool) :
    (m.activeConstraints descend).toList
      = ((m.withConstraint block r).activeConstraints descend).toList.filter m.isActive := by
  refine activeConstraints_eq_filter_of_opening (size_blocks_modifyBlock _ _).symm (fun id => ?_)
    fun id => ?_
  · rcases opening_withConstraint m block r descend id with ⟨more, -, hopening⟩
    rw [hopening]
  · rcases opening_withConstraint m block r descend id with ⟨more, hmore, hopening⟩
    have hnone : more.filter m.isActive = [] := List.filter_eq_nil_iff.mpr fun c hc => by
      rw [hmore c hc, isActive_ofIndex_size hsize]
      exact Bool.false_ne_true
    have hkeep : ∀ c, (m.isActive c && (m.withConstraint block r).isActive c) = m.isActive c := by
      intro c
      cases hc : m.isActive c with
      | false => rfl
      | true => rw [isActive_withConstraint hc, Bool.and_true]
    rw [hopening, List.filter_filter]
    simp only [hkeep]
    rw [List.filter_append, hnone, List.append_nil]

end Model

end Presolve
