import Presolve.Model.Basic

/-!
# Walks over Active Constraints

A walk hands out the active constraints of a model one at a time. It keeps the
blocks it has still to open on a stack and the constraints of the open block it
has still to look at. A block that is opened hands out its own constraints
first, and its children go onto the stack in their order; a block that is
switched off brings nothing with it, so everything below it is passed over.

A walk is a value, so it can be kept and taken up again. It ends because it
counts the blocks it may still take from the stack, which need never be more
than the model has.

`Walk.toList` states at once what a walk has still to hand out. The two lemmas
about it say that taking constraints one at a time comes to the same.

## Main definitions

* `Model.opening`: What opening a block brings.
* `Walk`: A walk under way.
* `Walk.next`: The next active constraint, and the walk after it.
* `Walk.take`: The next few constraints, and the walk after them.
* `Walk.toList`: All constraints that are left.
* `Model.activeConstraints`: The walk from the root block.

## Theorems

* `Walk.toList_of_next_some`: A constraint handed out is the first of those left.
* `Walk.toList_of_next_none`: A walk that hands out nothing has nothing left.
-/

namespace Presolve

variable {α : Type}

/-- The blocks to open and the constraints to look at once a block is opened. -/
def Model.opening (m : Model α) (descend : Bool) (id : BlockId) :
    List BlockId × List ConstraintId :=
  match m.blocks[id.index]?.filter (·.active) with
  | some b => (if descend then b.children else [], b.constraints)
  | none => ([], [])

/-- A walk over the active constraints of a model. -/
structure Walk (α : Type) where
  model : Model α
  /-- Children of opened blocks are opened too. -/
  descend : Bool
  /-- Blocks to open, the next one first. -/
  pending : List BlockId
  /-- Constraints of the open block that have not been looked at. -/
  current : List ConstraintId
  /-- How many blocks may still be taken from the stack. -/
  openings : Nat

namespace Walk

/-- The first active constraint of a list, and the rest of the list after it. -/
def firstActive? (m : Model α) : List ConstraintId → Option (ConstraintId × List ConstraintId)
  | [] => none
  | id :: rest => if m.isActive id then some (id, rest) else firstActive? m rest

/-- The next active constraint of a walk given by its parts, and the walk after
    it. -/
def advance (m : Model α) (descend : Bool) :
    Nat → List BlockId → List ConstraintId → Option ConstraintId × Walk α
  | openings, pending, current =>
    match firstActive? m current, openings, pending with
    | some (id, rest), openings, pending => (some id, ⟨m, descend, pending, rest, openings⟩)
    | none, openings + 1, b :: pending =>
      let opened := m.opening descend b
      advance m descend openings (opened.1 ++ pending) opened.2
    | none, openings, pending => (none, ⟨m, descend, pending, [], openings⟩)

/-- The next active constraint and the walk after it. -/
def next (w : Walk α) : Option ConstraintId × Walk α :=
  advance w.model w.descend w.openings w.pending w.current

/-- The next constraints of a walk, at most `n` of them, and the walk after
    them. -/
def take : (n : Nat) → Walk α → List ConstraintId × Walk α
  | 0, w => ([], w)
  | n + 1, w =>
    match w.next with
    | (none, rest) => ([], rest)
    | (some id, rest) =>
      let (ids, last) := rest.take n
      (id :: ids, last)

/-- The active constraints that are left in a walk given by its parts. -/
def remaining (m : Model α) (descend : Bool) :
    Nat → List BlockId → List ConstraintId → List ConstraintId
  | openings + 1, b :: pending, current =>
    let opened := m.opening descend b
    current.filter m.isActive ++ remaining m descend openings (opened.1 ++ pending) opened.2
  | _, _, current => current.filter m.isActive

/-- The constraints a walk has still to hand out. -/
def toList (w : Walk α) : List ConstraintId :=
  remaining w.model w.descend w.openings w.pending w.current

theorem filter_of_firstActive_some {m : Model α} {ids rest : List ConstraintId} {id : ConstraintId}
    (h : firstActive? m ids = some (id, rest)) :
    ids.filter m.isActive = id :: rest.filter m.isActive := by
  induction ids with
  | nil => exact absurd h (by simp only [firstActive?, reduceCtorEq, not_false_eq_true])
  | cons a tail ih =>
      simp only [firstActive?] at h
      by_cases hactive : m.isActive a
      · rw [if_pos hactive, Option.some.injEq, Prod.mk.injEq] at h
        rw [List.filter_cons_of_pos hactive, h.1, h.2]
      · rw [if_neg hactive] at h
        rw [List.filter_cons_of_neg hactive, ih h]

theorem filter_of_firstActive_none {m : Model α} {ids : List ConstraintId}
    (h : firstActive? m ids = none) : ids.filter m.isActive = [] := by
  induction ids with
  | nil => rfl
  | cons a tail ih =>
      simp only [firstActive?] at h
      by_cases hactive : m.isActive a
      · rw [if_pos hactive] at h
        exact absurd h (by simp only [reduceCtorEq, not_false_eq_true])
      · rw [if_neg hactive] at h
        rw [List.filter_cons_of_neg hactive, ih h]

/-- The constraints at hand come before those of the blocks still to open. -/
theorem remaining_eq_filter_append (m : Model α) (descend : Bool) (openings : Nat)
    (pending : List BlockId) (current : List ConstraintId) :
    remaining m descend openings pending current
      = current.filter m.isActive ++ remaining m descend openings pending [] := by
  cases openings with
  | zero => simp only [remaining, List.filter_nil, List.append_nil]
  | succ n =>
      cases pending with
      | nil => simp only [remaining, List.filter_nil, List.append_nil]
      | cons b tail => simp only [remaining, List.filter_nil, List.nil_append]

/-- Where no block can be opened there are no openings left or no blocks. -/
theorem eq_zero_or_eq_nil_of_stop {openings : Nat} {pending : List BlockId}
    (hstop : ∀ (n : Nat) (b : BlockId) (rest : List BlockId),
      openings = n + 1 → pending = b :: rest → False) : openings = 0 ∨ pending = [] := by
  cases openings with
  | zero => exact Or.inl rfl
  | succ n =>
      cases pending with
      | nil => exact Or.inr rfl
      | cons b rest => exact (hstop n b rest rfl rfl).elim

theorem remaining_of_advance_some {m : Model α} {descend : Bool} {openings : Nat}
    {pending : List BlockId} {current : List ConstraintId} {id : ConstraintId} {rest : Walk α}
    (h : advance m descend openings pending current = (some id, rest)) :
    remaining m descend openings pending current = id :: rest.toList := by
  fun_induction advance m descend openings pending current with
  | case1 current head tail openings pending hfirst =>
      rw [Prod.mk.injEq, Option.some.injEq] at h
      rw [← h.1, ← h.2, remaining_eq_filter_append, filter_of_firstActive_some hfirst,
        List.cons_append, toList, ← remaining_eq_filter_append]
  | case2 current openings b pending hfirst opened ih =>
      rw [remaining_eq_filter_append, filter_of_firstActive_none hfirst, List.nil_append,
        remaining, List.filter_nil, List.nil_append, ih h]
  | case3 current openings pending hstop hfirst =>
      -- A walk that stays where it is hands out nothing.
      exact absurd (Prod.mk.inj h).1 (Option.some_ne_none id).symm

theorem remaining_of_advance_none {m : Model α} {descend : Bool} {openings : Nat}
    {pending : List BlockId} {current : List ConstraintId} {rest : Walk α}
    (h : advance m descend openings pending current = (none, rest)) :
    remaining m descend openings pending current = [] := by
  fun_induction advance m descend openings pending current with
  | case1 current head tail openings pending hfirst =>
      exact absurd (Prod.mk.inj h).1 (Option.some_ne_none head)
  | case2 current openings b pending hfirst opened ih =>
      rw [remaining_eq_filter_append, filter_of_firstActive_none hfirst, List.nil_append,
        remaining, List.filter_nil, List.nil_append, ih h]
  | case3 current openings pending hstop hfirst =>
      rw [remaining_eq_filter_append, filter_of_firstActive_none hfirst, List.nil_append]
      rcases eq_zero_or_eq_nil_of_stop hstop with rfl | rfl
      · rfl
      · cases openings <;> rfl

theorem toList_of_next_some {w rest : Walk α} {id : ConstraintId}
    (h : w.next = (some id, rest)) : w.toList = id :: rest.toList :=
  remaining_of_advance_some h

theorem toList_of_next_none {w rest : Walk α} (h : w.next = (none, rest)) : w.toList = [] :=
  remaining_of_advance_none h

end Walk

/-- The walk over the active constraints of the root block and, if `descend`, of
    all blocks below it. -/
def Model.activeConstraints (m : Model α) (descend : Bool) : Walk α where
  model := m
  descend := descend
  pending := [rootBlock]
  current := []
  openings := m.blocks.size

end Presolve
