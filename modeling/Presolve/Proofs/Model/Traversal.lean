import Mathlib.Data.List.Perm.Subperm
import Presolve.Model.Tree
import Presolve.Proofs.Model.Structure

/-!
# Walks and Traversals

A walk keeps a stack and a cursor and can be left at any point, while the traversal it
stands for is a recursion on the tree: the active constraints of a block, followed by
what the traversals of its children list. Both hand out the same constraints in the same
order.

The recursion is stated without a depth, as the equations that a function on blocks has
to satisfy. As children are newer than their parents, one function does, and it is the
traversal down to as many levels as there are blocks. At each point a walk has still to
hand out the active constraints in front of its cursor and then the traversals of the
blocks on its stack, the topmost one first. Opening the topmost block puts its equation
in the place of its traversal, so this is what every step keeps.

A walk counts the blocks it may still open. It opens no block twice, so there are always
enough left for those that wait: the walk ends with an empty stack, and never because of
the count.

## Main definitions

* `Walk.after`, `Walk.answer`: A walk asked over and over again.
* `Model.Traversal`: The equations of the recursion.
* `Walk.Ample`: The blocks that wait and those that may still be opened.
* `Walk.Covers`: What a walk under way has still to hand out.
* `Model.WalkFollows`: The walk from the root hands out what the traversal lists.

## Theorems

* `Walk.answer_eq`, `Walk.toList_after`: The answers of a walk are what it has left.
* `Model.Treelike.traversal_traverse`: The traversal satisfies its equations.
* `Model.Traversal.eq_traverse`: Nothing else does.
* `Walk.Ample.open_next`: Opening a block leaves enough openings for the others.
* `Walk.Ample.remaining_eq`: What the stack and the cursor stand for.
* `Model.Reachable.walkFollows`: Walks of reachable models follow the traversal.
-/

namespace Presolve

variable {α : Type}

namespace Walk

/-- The walk after it was asked `n` times. -/
def after : (n : Nat) → Walk α → Walk α
  | 0, w => w
  | n + 1, w => w.next.2.after n

/-- What a walk answers once it was asked `n` times before. -/
def answer (w : Walk α) (n : Nat) : Option ConstraintId := (w.after n).next.1

/-- A walk that has ended answers nothing and stays as it is. -/
theorem advance_of_advance_none {m : Model α} {descend : Bool} {openings : Nat}
    {pending : List BlockId} {current : List ConstraintId} {rest : Walk α}
    (h : advance m descend openings pending current = (none, rest)) : rest.next = (none, rest) := by
  fun_induction advance m descend openings pending current with
  | case1 current head tail openings pending hfirst =>
      exact absurd (Prod.mk.inj h).1 (Option.some_ne_none head)
  | case2 current openings b pending hfirst opened ih => exact ih h
  | case3 current openings pending hstop hfirst =>
      rcases Prod.mk.inj h with ⟨-, rfl⟩
      rcases eq_zero_or_eq_nil_of_stop hstop with rfl | rfl
      · rfl
      · cases openings <;> rfl

theorem next_fst (w : Walk α) : w.next.1 = w.toList.head? := by
  rcases hnext : w.next with ⟨_ | id, rest⟩
  · rw [toList_of_next_none hnext, List.head?_nil]
  · rw [toList_of_next_some hnext, List.head?_cons]

theorem toList_next (w : Walk α) : w.next.2.toList = w.toList.tail := by
  rcases hnext : w.next with ⟨_ | id, rest⟩
  · rw [toList_of_next_none hnext, toList_of_next_none (advance_of_advance_none hnext),
      List.tail_nil]
  · rw [toList_of_next_some hnext, List.tail_cons]

/-- Asking a walk `n` times takes the first `n` constraints off what it has left. -/
theorem toList_after (w : Walk α) (n : Nat) : (w.after n).toList = w.toList.drop n := by
  induction n generalizing w with
  | zero => rw [after, List.drop_zero]
  | succ n ih => rw [after, ih, toList_next, List.drop_tail]

theorem answer_eq (w : Walk α) (n : Nat) : w.answer n = w.toList[n]? := by
  rw [answer, next_fst, toList_after, List.head?_drop]

end Walk

namespace Model

variable {m : Model α}

/-- What `visits` lists for a block are its active constraints and, if `descend`, what it
    lists for the children, one after the other. A block that is switched off hides all
    of this. -/
structure Traversal (m : Model α) (descend : Bool) (visits : BlockId → List ConstraintId) :
    Prop where
  unknown : ∀ id, (∀ b, m.blockAt id ≠ .ok b) → visits id = []
  inactive : ∀ id b, m.blockAt id = .ok b → b.active = false → visits id = []
  active : ∀ id b, m.blockAt id = .ok b → b.active = true →
    visits id = b.constraints.filter m.isActive ++
      if descend then b.children.flatMap visits else []

theorem opening_of_active {id : BlockId} {b : Block} (hb : m.blockAt id = .ok b)
    (hactive : b.active = true) (descend : Bool) :
    m.opening descend id = (if descend then b.children else [], b.constraints) := by
  rw [opening, blockAt_eq_ok.mp hb, Option.filter_some, if_pos hactive]

theorem opening_of_inactive {id : BlockId} {b : Block} (hb : m.blockAt id = .ok b)
    (hinactive : b.active = false) (descend : Bool) : m.opening descend id = ([], []) := by
  rw [opening, blockAt_eq_ok.mp hb, Option.filter_some, hinactive]
  rfl

theorem opening_of_unknown {id : BlockId} (h : m.blocks[id.index]? = none) (descend : Bool) :
    m.opening descend id = ([], []) := by
  rw [opening, h]
  rfl

theorem flatMap_children (b : Block) (descend : Bool) (f : BlockId → List ConstraintId) :
    (if descend then b.children else []).flatMap f
      = if descend then b.children.flatMap f else [] := by
  cases descend <;> rfl

/-- The equations of the traversal are one equation on what opening a block brings. -/
theorem traversal_iff {descend : Bool} {visits : BlockId → List ConstraintId} :
    m.Traversal descend visits ↔ ∀ id, visits id =
      (m.opening descend id).2.filter m.isActive ++ (m.opening descend id).1.flatMap visits := by
  constructor
  · intro h id
    cases hget : m.blocks[id.index]? with
    | none =>
        rw [opening_of_unknown hget]
        refine h.unknown id fun b hb => ?_
        rw [blockAt_eq_ok, hget] at hb
        cases hb
    | some b =>
        have hb := blockAt_eq_ok.mpr hget
        cases hactive : b.active with
        | false =>
            rw [opening_of_inactive hb hactive, h.inactive id b hb hactive]
            rfl
        | true => rw [opening_of_active hb hactive, h.active id b hb hactive,
            flatMap_children]
  · intro h
    refine ⟨fun id hunknown => ?_, fun id b hb hinactive => ?_, fun id b hb hactive => ?_⟩
    · cases hget : m.blocks[id.index]? with
      | none =>
          rw [h, opening_of_unknown hget]
          rfl
      | some b => exact absurd (blockAt_eq_ok.mpr hget) (hunknown b)
    · rw [h, opening_of_inactive hb hinactive]
      rfl
    · rw [h, opening_of_active hb hactive, flatMap_children]

/-- One level of a traversal. -/
theorem traverse_step (m : Model α) (descend : Bool) (depth : Nat) (id : BlockId) :
    m.traverse descend (depth + 1) id = (m.opening descend id).2.filter m.isActive ++
      (m.opening descend id).1.flatMap (m.traverse descend depth) := by
  rw [traverse]
  cases hget : m.blocks[id.index]? with
  | none =>
      rw [opening_of_unknown hget]
      rfl
  | some b =>
      have hb := blockAt_eq_ok.mpr hget
      cases hactive : b.active with
      | false =>
          rw [opening_of_inactive hb hactive]
          simp only [hactive, Bool.false_eq_true, if_false]
          rfl
      | true => simp only [opening_of_active hb hactive, hactive, if_true, flatMap_children]

/-- The children that opening a block brings are newer than the block. -/
theorem Treelike.index_lt_of_mem_opening (h : m.Treelike) {descend : Bool} {id c : BlockId}
    (hc : c ∈ (m.opening descend id).1) : id.index < c.index := by
  rcases (h.opening_fst descend id).2 c hc with ⟨b, hb, hparent⟩
  by_cases hroot : c.index = 0
  · rw [hroot] at hb
    rw [h.root b hb] at hparent
    cases hparent
  · rcases h.parent _ b hb hroot with ⟨q, hq, hlt⟩
    rw [hparent, Option.some.injEq] at hq
    rwa [hq]

/-- Two functions that agree on newer blocks agree on what the children list. -/
theorem Treelike.flatMap_opening_congr (h : m.Treelike) {descend : Bool} {id : BlockId}
    {f g : BlockId → List ConstraintId} (hfg : ∀ c : BlockId, id.index < c.index → f c = g c) :
    (m.opening descend id).1.flatMap f = (m.opening descend id).1.flatMap g :=
  List.flatMap_congr fun c hc => hfg c (h.index_lt_of_mem_opening hc)

/-- Below as many levels as there are newer blocks nothing is left to list. -/
theorem Treelike.traverse_succ (h : m.Treelike) (descend : Bool) {depth : Nat} {id : BlockId}
    (hdepth : m.blocks.size ≤ depth + id.index) :
    m.traverse descend (depth + 1) id = m.traverse descend depth id := by
  induction depth generalizing id with
  | zero =>
      have hget : m.blocks[id.index]? = none := Array.getElem?_eq_none (by omega)
      rw [traverse_step, opening_of_unknown hget]
      rfl
  | succ depth ih =>
      rw [traverse_step, traverse_step, h.flatMap_opening_congr fun c hc => ih (by omega)]

/-- The traversal down to as many levels as there are blocks satisfies the equations. -/
theorem Treelike.traversal_traverse (h : m.Treelike) (descend : Bool) :
    m.Traversal descend (m.traverse descend m.blocks.size) := by
  rw [traversal_iff]
  intro id
  rw [← traverse_step, h.traverse_succ descend (Nat.le_add_right ..)]

/-- Whatever satisfies the equations is the traversal. -/
theorem Traversal.eq_traverse {descend : Bool} {visits : BlockId → List ConstraintId}
    (h : m.Traversal descend visits) (htree : m.Treelike) {depth : Nat} {id : BlockId}
    (hdepth : m.blocks.size ≤ depth + id.index) :
    visits id = m.traverse descend depth id := by
  have hstep := traversal_iff.mp h
  induction depth generalizing id with
  | zero =>
      have hget : m.blocks[id.index]? = none := Array.getElem?_eq_none (by omega)
      rw [hstep, opening_of_unknown hget]
      rfl
  | succ depth ih =>
      rw [hstep, traverse_step, htree.flatMap_opening_congr fun c hc => ih (by omega)]

end Model

namespace Walk

variable {m : Model α} {descend : Bool} {openings : Nat} {opened pending rest : List BlockId}
  {id : BlockId}

/-- The blocks that were opened or wait are blocks of the model, and all others may still
    be opened. -/
structure Ample (m : Model α) (openings : Nat) (opened pending : List BlockId) : Prop extends
    Frontier m opened pending where
  lt : ∀ id ∈ opened ++ pending, id.index < m.blocks.size
  size : opened.length + openings = m.blocks.size

theorem Ample.root (h : m.Treelike) (hroot : 0 < m.blocks.size) :
    Ample m m.blocks.size [] [rootBlock] where
  toFrontier := .root h
  lt id hid := by
    rw [List.mem_singleton.mp hid]
    exact hroot
  size := Nat.zero_add _

/-- Opening the next block leaves enough openings for the others. -/
theorem Ample.open_next (h : Ample m (openings + 1) opened (id :: rest)) (htree : m.Treelike)
    (descend : Bool) : Ample m openings (id :: opened) ((m.opening descend id).1 ++ rest) where
  toFrontier := h.toFrontier.open_next htree descend
  lt c hc := by
    -- What is new on the stack are children, which are blocks of the model.
    simp only [List.cons_append, List.mem_cons, List.mem_append] at hc
    rcases hc with rfl | hc | hc | hc
    · exact h.lt c (List.mem_append_right _ List.mem_cons_self)
    · exact h.lt c (List.mem_append_left _ hc)
    · rcases (htree.opening_fst descend id).2 c hc with ⟨b, hb, -⟩
      exact (Array.getElem?_eq_some_iff.mp hb).1
    · exact h.lt c (List.mem_append_right _ (List.mem_cons_of_mem _ hc))
  size := by
    have := h.size
    rw [List.length_cons]
    omega

/-- If no block may be opened any more, all of them were, and none waits. -/
theorem Ample.eq_nil (h : Ample m 0 opened pending) : pending = [] := by
  -- There are as many opened blocks as positions, and none of those that wait is among them.
  have hnodup : ((opened ++ pending).map Id.index).Nodup :=
    h.nodup.map fun _ _ => Id.index_inj
  have hsubset : (opened ++ pending).map Id.index ⊆ List.range m.blocks.size := by
    intro i hi
    rcases List.mem_map.mp hi with ⟨id, hid, rfl⟩
    exact List.mem_range.mpr (h.lt id hid)
  have hlength := (hnodup.subperm hsubset).length_le
  rw [List.length_map, List.length_append, List.length_range] at hlength
  have := h.size
  exact List.eq_nil_of_length_eq_zero (by omega)

/-- What is left is in front of the cursor or is listed for the blocks on the stack. -/
theorem Ample.remaining_eq {visits : BlockId → List ConstraintId}
    (h : Ample m openings opened pending) (htree : m.Treelike)
    (hvisits : m.Traversal descend visits) (current : List ConstraintId) :
    remaining m descend openings pending current
      = current.filter m.isActive ++ pending.flatMap visits := by
  -- The induction is on the openings. Opening a block unfolds its traversal on the stack.
  induction openings generalizing opened pending current with
  | zero =>
      rw [h.eq_nil, remaining_eq_filter_append]
      rfl
  | succ n ih =>
      cases pending with
      | nil =>
          rw [remaining_eq_filter_append]
          rfl
      | cons id rest =>
          rw [remaining, ih (h.open_next htree descend), List.flatMap_append, List.flatMap_cons,
            Model.traversal_iff.mp hvisits id, List.append_assoc]

/-- A walk of the model that may open enough blocks. -/
structure Within (w : Walk α) (m : Model α) (descend : Bool) : Prop where
  model : w.model = m
  descend : w.descend = descend
  ample : ∃ opened, Ample m w.openings opened w.pending

/-- A step keeps the openings ample, and a walk that hands out nothing has no blocks left
    on its stack. -/
theorem within_of_advance {current : List ConstraintId} {found : Option ConstraintId}
    {next : Walk α} (htree : m.Treelike) (h : ∃ opened, Ample m openings opened pending)
    (hnext : advance m descend openings pending current = (found, next)) :
    next.Within m descend ∧ (found = none → next.pending = []) := by
  fun_induction advance m descend openings pending current with
  | case1 current head tail openings pending hfirst =>
      rcases Prod.mk.inj hnext with ⟨rfl, rfl⟩
      exact ⟨⟨rfl, rfl, h⟩, fun hnone => absurd hnone (Option.some_ne_none head)⟩
  | case2 current openings b pending hfirst brought ih =>
      rcases h with ⟨opened, hample⟩
      exact ih ⟨b :: opened, hample.open_next htree descend⟩ hnext
  | case3 current openings pending hstop hfirst =>
      rcases Prod.mk.inj hnext with ⟨rfl, rfl⟩
      refine ⟨⟨rfl, rfl, h⟩, fun _ => ?_⟩
      -- The stack is empty also where the openings are used up.
      rcases h with ⟨opened, hample⟩
      rcases eq_zero_or_eq_nil_of_stop hstop with rfl | rfl
      · exact hample.eq_nil
      · rfl

theorem Within.root (htree : m.Treelike) (hroot : 0 < m.blocks.size) (descend : Bool) :
    (m.activeConstraints descend).Within m descend :=
  ⟨rfl, rfl, [], .root htree hroot⟩

theorem Within.next {w : Walk α} (h : w.Within m descend) (htree : m.Treelike) :
    w.next.2.Within m descend ∧ (w.next.1 = none → w.next.2.pending = []) := by
  rcases h with ⟨rfl, rfl, hample⟩
  exact within_of_advance htree hample rfl

theorem Within.after {w : Walk α} (h : w.Within m descend) (htree : m.Treelike) (n : Nat) :
    (w.after n).Within m descend := by
  induction n generalizing w with
  | zero => exact h
  | succ n ih => exact ih (h.next htree).1

/-- A walk that is asked over and over answers with `ids` and then with nothing. These are
    the active constraints in front of its cursor and then what `visits` lists for the
    blocks on its stack. If it answers nothing, the stack has become empty. -/
structure Covers (w : Walk α) (visits : BlockId → List ConstraintId) (ids : List ConstraintId) :
    Prop where
  answer : ∀ n, w.answer n = ids[n]?
  parts : w.current.filter w.model.isActive ++ w.pending.flatMap visits = ids
  ended : w.next.1 = none → w.next.2.pending = []

theorem Within.toList_eq {w : Walk α} (h : w.Within m descend) (htree : m.Treelike)
    {visits : BlockId → List ConstraintId} (hvisits : m.Traversal descend visits) :
    w.toList = w.current.filter m.isActive ++ w.pending.flatMap visits := by
  rcases h with ⟨rfl, rfl, opened, hample⟩
  exact hample.remaining_eq htree hvisits w.current

theorem Within.covers {w : Walk α} (h : w.Within m descend) (htree : m.Treelike)
    {visits : BlockId → List ConstraintId} (hvisits : m.Traversal descend visits) :
    w.Covers visits w.toList where
  answer := w.answer_eq
  parts := by rw [h.model, h.toList_eq htree hvisits]
  ended := (h.next htree).2

end Walk

namespace Model

/-- The walk from the root hands out what `visits` lists for the root, whenever it is looked
    at on the way, and `visits` is the one function that satisfies the equations of the
    traversal. -/
structure WalkFollows (m : Model α) (descend : Bool) (visits : BlockId → List ConstraintId) :
    Prop where
  traversal : m.Traversal descend visits
  unique : ∀ other, m.Traversal descend other → other = visits
  covers : ∀ n, ((m.activeConstraints descend).after n).Covers visits ((visits rootBlock).drop n)
  /-- A walk that has ended stays so. -/
  ended : ∀ n k, n ≤ k → (m.activeConstraints descend).answer n = none →
    (m.activeConstraints descend).answer k = none

variable {m : Model α}

/-- A walk from the root has what the traversal lists. -/
theorem Coherent.toList_activeConstraints (h : m.Coherent) {descend : Bool}
    {visits : BlockId → List ConstraintId} (hvisits : m.Traversal descend visits) :
    (m.activeConstraints descend).toList = visits rootBlock := by
  rw [(Walk.Within.root h.tree h.root descend).toList_eq h.tree hvisits]
  exact List.flatMap_singleton ..

/-- The walks of a reachable model follow the traversal of its blocks. -/
theorem Reachable.walkFollows [Scalar α] (h : m.Reachable) (hfits : m.Fits) (descend : Bool) :
    m.WalkFollows descend (m.traverse descend m.blocks.size) := by
  have hcoherent := h.coherent hfits
  have htree := hcoherent.tree
  have htraversal := htree.traversal_traverse descend
  refine ⟨htraversal, fun other hother => ?_, fun n => ?_, fun n k hle hnone => ?_⟩
  · funext id
    exact hother.eq_traverse htree (Nat.le_add_right ..)
  · -- What is left of the walk is what it had at first, less its first answers.
    rw [← hcoherent.toList_activeConstraints htraversal, ← Walk.toList_after]
    exact ((Walk.Within.root htree hcoherent.root descend).after htree n).covers htree htraversal
  · rw [Walk.answer_eq, List.getElem?_eq_none_iff] at hnone ⊢
    exact hnone.trans hle

/-- Two blocks below the root with one below each of them, all with constraints. The second
    block is switched off and hides the one below it, and the first constraint of the root
    is switched off alone. The other one comes first, as a block is listed before what is
    below it, although it was added last. -/
theorem walkFollows_nested :
    ∃ m : Model Float,
      m = (Model.empty : Model Float).after [.addVariable {}, .addBlock rootBlock "a",
        .addBlock rootBlock "b", .addBlock ⟨1⟩ "c", .addBlock ⟨2⟩ "d",
        .addConstraintTo ⟨3⟩ (.term ⟨0⟩ 1) ⟨none, some 6⟩,
        .addConstraintTo rootBlock (.term ⟨0⟩ 1) ⟨none, some 5⟩,
        .addConstraintTo ⟨1⟩ (.term ⟨0⟩ 1) ⟨none, some 4⟩,
        .addConstraintTo ⟨4⟩ (.term ⟨0⟩ 1) ⟨none, some 3⟩,
        .addConstraintTo ⟨2⟩ (.term ⟨0⟩ 1) ⟨none, some 2⟩,
        .addConstraintTo rootBlock (.term ⟨0⟩ 1) ⟨none, some 1⟩,
        .setConstraintActive ⟨1⟩ false, .setBlockActive ⟨2⟩ false] ∧
      m.Fits ∧ m.WalkFollows true (m.traverse true m.blocks.size) ∧
      m.WalkFollows false (m.traverse false m.blocks.size) ∧
      ((m.activeConstraints true).take 9).1 = [⟨5⟩, ⟨2⟩, ⟨0⟩] ∧
      ((m.activeConstraints false).take 9).1 = [⟨5⟩] := by
  set m := (Model.empty : Model Float).after [.addVariable {}, .addBlock rootBlock "a",
    .addBlock rootBlock "b", .addBlock ⟨1⟩ "c", .addBlock ⟨2⟩ "d",
    .addConstraintTo ⟨3⟩ (.term ⟨0⟩ 1) ⟨none, some 6⟩,
    .addConstraintTo rootBlock (.term ⟨0⟩ 1) ⟨none, some 5⟩,
    .addConstraintTo ⟨1⟩ (.term ⟨0⟩ 1) ⟨none, some 4⟩,
    .addConstraintTo ⟨4⟩ (.term ⟨0⟩ 1) ⟨none, some 3⟩,
    .addConstraintTo ⟨2⟩ (.term ⟨0⟩ 1) ⟨none, some 2⟩,
    .addConstraintTo rootBlock (.term ⟨0⟩ 1) ⟨none, some 1⟩,
    .setConstraintActive ⟨1⟩ false, .setBlockActive ⟨2⟩ false] with hm
  have hreachable : m.Reachable := ⟨_, hm.symm⟩
  have hfits : m.Fits := ⟨by decide +kernel, by decide +kernel, by decide +kernel⟩
  exact ⟨m, rfl, hfits, hreachable.walkFollows hfits true, hreachable.walkFollows hfits false,
    by decide +kernel, by decide +kernel⟩

end Model

end Presolve
