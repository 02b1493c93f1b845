import Presolve.Model.Walk

/-!
# Comparing Walks

A walk depends on the blocks of a model and, of the constraints, on their
switches alone. In a model with the same blocks in which some more constraints
are off, the walk passes over those and is otherwise the same. And a walk that
stays in the root block hands out nothing that a walk of the whole tree does not.

## Theorems

* `Walk.remaining_eq_filter_of_opening`: A walk that hands out part of another one.
* `Model.activeConstraints_eq_filter`: Switching constraints off filters a walk.
* `Model.mem_activeConstraints_true`: A walk of the root is part of any other.
* `Walk.isActive_of_mem_remaining`: A walk hands out active constraints.
-/

namespace Presolve

variable {α : Type} {m m' : Model α}

theorem Model.opening_congr (h : m'.blocks = m.blocks) (descend : Bool) (id : BlockId) :
    m'.opening descend id = m.opening descend id := by
  rw [opening, opening, h]

namespace Walk

/-- If each block brings the same blocks, and of its constraints those that are still
    on, then a walk hands out what is still on of the other one. -/
theorem remaining_eq_filter_of_opening {descend : Bool}
    (hpending : ∀ id, (m'.opening descend id).1 = (m.opening descend id).1)
    (hcurrent : ∀ id, (m'.opening descend id).2.filter m'.isActive
      = ((m.opening descend id).2.filter m.isActive).filter m'.isActive)
    (openings : Nat) (pending : List BlockId) {current current' : List ConstraintId}
    (h : current'.filter m'.isActive = (current.filter m.isActive).filter m'.isActive) :
    remaining m' descend openings pending current'
      = (remaining m descend openings pending current).filter m'.isActive := by
  induction openings generalizing pending current current' with
  | zero => exact h
  | succ n ih =>
      cases pending with
      | nil => exact h
      | cons b rest =>
          simp only [remaining, hpending]
          rw [List.filter_append, h, ih _ (hcurrent b)]

/-- A walk hands out active constraints. -/
theorem isActive_of_mem_remaining {descend : Bool} {openings : Nat} {pending : List BlockId}
    {current : List ConstraintId} {id : ConstraintId}
    (h : id ∈ remaining m descend openings pending current) : m.isActive id = true := by
  induction openings generalizing pending current with
  | zero => exact (List.mem_filter.mp h).2
  | succ n ih =>
      cases pending with
      | nil => exact (List.mem_filter.mp h).2
      | cons b rest =>
          simp only [remaining] at h
          rcases List.mem_append.mp h with h | h
          · exact (List.mem_filter.mp h).2
          · exact ih h

end Walk

namespace Model

/-- A walk of the root block is part of any other. -/
theorem mem_activeConstraints_true {descend : Bool} {id : ConstraintId}
    (h : id ∈ (m.activeConstraints descend).toList) : id ∈ (m.activeConstraints true).toList := by
  cases descend with
  | true => exact h
  | false =>
      simp only [activeConstraints, Walk.toList] at h ⊢
      cases hsize : m.blocks.size with
      | zero =>
          rw [hsize] at h
          exact absurd h List.not_mem_nil
      | succ n =>
          rw [hsize] at h
          -- Both walks open the root first, and one of them stops there.
          have hroot : (m.opening true rootBlock).2 = (m.opening false rootBlock).2 := by
            simp only [opening]
            cases m.blocks[rootBlock.index]?.filter (·.active) <;> rfl
          have hclosed : (m.opening false rootBlock).1 = [] := by
            simp only [opening]
            cases m.blocks[rootBlock.index]?.filter (·.active) <;> rfl
          have honly : id ∈ (m.opening false rootBlock).2.filter m.isActive := by
            simp only [Walk.remaining, hclosed, List.filter_nil, List.nil_append] at h
            cases n <;> exact h
          simp only [Walk.remaining, List.filter_nil, List.nil_append]
          rw [Walk.remaining_eq_filter_append, hroot]
          exact List.mem_append_left _ honly

theorem activeConstraints_eq_filter_of_opening {descend : Bool}
    (hsize : m'.blocks.size = m.blocks.size)
    (hpending : ∀ id, (m'.opening descend id).1 = (m.opening descend id).1)
    (hcurrent : ∀ id, (m'.opening descend id).2.filter m'.isActive
      = ((m.opening descend id).2.filter m.isActive).filter m'.isActive) :
    (m'.activeConstraints descend).toList
      = (m.activeConstraints descend).toList.filter m'.isActive := by
  simp only [activeConstraints, Walk.toList]
  rw [hsize]
  exact Walk.remaining_eq_filter_of_opening hpending hcurrent _ _ rfl

/-- Switching constraints off filters what a walk hands out. -/
theorem activeConstraints_eq_filter (hblocks : m'.blocks = m.blocks)
    (hactive : ∀ id, m'.isActive id = true → m.isActive id = true) (descend : Bool) :
    (m'.activeConstraints descend).toList
      = (m.activeConstraints descend).toList.filter m'.isActive := by
  refine activeConstraints_eq_filter_of_opening (congrArg Array.size hblocks)
    (fun id => congrArg Prod.fst (opening_congr hblocks descend id)) fun id => ?_
  rw [opening_congr hblocks, List.filter_filter]
  -- What is on afterwards was on before, so filtering twice is filtering once.
  refine List.filter_congr fun c _ => ?_
  cases hc : m'.isActive c with
  | false => rfl
  | true => rw [hactive c hc, Bool.and_true]

theorem isActive_of_mem_activeConstraints {descend : Bool} {id : ConstraintId}
    (h : id ∈ (m.activeConstraints descend).toList) : m.isActive id = true :=
  Walk.isActive_of_mem_remaining h

end Model

end Presolve
