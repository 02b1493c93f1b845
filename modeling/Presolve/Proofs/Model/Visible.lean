import Presolve.Proofs.Model.Traversal

/-!
# Constraints a Walk Hands Out

A walk goes down the tree along lists of children, while what decides whether a constraint
is handed out lies above it: the block that lists the constraint and all blocks on the way
up to the root have to be active. The two agree because a block lists as its children
those blocks that name it as their parent, and because every way up ends at the root.

Going down, a block is reached only through active blocks, so one that is itself active
has an active way up. Going up, the constraints a block lists when its way up is active
are among those that its parent lists, and hence among those of the root.

## Main definitions

* `Model.Owns`: A block lists a constraint.
* `Model.Open`: A block and everything above it is active.
* `Model.Exhaustive`: Walks hand out what is active, and all of it once.

## Theorems

* `Model.Coherent.below_root`: Every block is below the root.
* `Model.Coherent.exists_open_of_mem_traverse`: What is listed is owned by an open block.
* `Model.Coherent.visits_subset_root`: What an open block lists is listed for the root.
* `Model.Reachable.exhaustive`: Walks of reachable models are exhaustive.
-/

namespace Presolve

namespace Model

variable {α : Type} {m : Model α} {id parent block : BlockId} {b : Block}

/-- The block is one of the model and lists the constraint. -/
def Owns (m : Model α) (block : BlockId) (id : ConstraintId) : Prop :=
  ∃ b, m.blockAt block = .ok b ∧ id ∈ b.constraints

/-- The block and every block above it are active. -/
def Open (m : Model α) (block : BlockId) : Prop :=
  ∀ top, m.Below top block → ∃ b, m.blockAt top = .ok b ∧ b.active = true

theorem Open.active (h : m.Open id) (hb : m.blockAt id = .ok b) : b.active = true := by
  rcases h id .refl with ⟨b', hb', hactive⟩
  rwa [Except.ok.inj (hb.symm.trans hb')]

/-- The parent of an open block is open. -/
theorem Open.above (h : m.Open id) (hb : m.blockAt id = .ok b) (hparent : b.parent = some parent) :
    m.Open parent :=
  fun top htop => h top (.child htop hb hparent)

/-- An active block is open if its parent is. -/
theorem Open.below (h : m.Open parent) (hb : m.blockAt id = .ok b)
    (hparent : b.parent = some parent) (hactive : b.active = true) : m.Open id := by
  intro top htop
  cases htop with
  | refl => exact ⟨b, hb, hactive⟩
  | child hbelow hb' hparent' =>
      rcases Except.ok.inj (hb.symm.trans hb') with rfl
      rcases Option.some.inj (hparent.symm.trans hparent') with rfl
      exact h top hbelow

theorem Coherent.exists_root (h : m.Coherent) : ∃ b, m.blockAt rootBlock = .ok b :=
  ⟨_, blockAt_eq_ok.mpr (Array.getElem?_eq_getElem h.root)⟩

/-- The root is open if it is active, having nothing above it. -/
theorem Coherent.open_root (h : m.Coherent) (hb : m.blockAt rootBlock = .ok b)
    (hactive : b.active = true) : m.Open rootBlock := by
  intro top htop
  cases htop with
  | refl => exact ⟨b, hb, hactive⟩
  | child _ hb' hparent =>
      rw [h.tree.root _ (blockAt_eq_ok.mp hb')] at hparent
      cases hparent

/-- Every block is below the root. -/
theorem Coherent.below_root (h : m.Coherent) (hb : m.blockAt id = .ok b) :
    m.Below rootBlock id := by
  -- The induction is on the position, as parents are older.
  induction hi : id.index using Nat.strong_induction_on generalizing id b with
  | _ i ih =>
      subst hi
      by_cases hroot : id.index = 0
      · rw [Id.index_inj (show id.index = rootBlock.index from hroot)]
        exact .refl
      · rcases h.tree.parent _ b (blockAt_eq_ok.mp hb) hroot with ⟨q, hq, hlt⟩
        rcases h.mem_children hb hq with ⟨p, hp, -⟩
        exact .child (ih q.index hlt hp rfl) hb hq

theorem isActive_iff {id : ConstraintId} :
    m.isActive id = true ↔ ∃ c, m.constraintAt id = .ok c ∧ c.active = true := by
  simp only [isActive, Option.any_eq_true, constraintAt_eq_ok]

theorem mem_answers_iff {w : Walk α} {id : ConstraintId} :
    (∃ n, w.answer n = some id) ↔ id ∈ w.toList := by
  simp only [Walk.answer_eq, List.mem_iff_getElem?]

/-- What a traversal lists for a block that is open when it is active is owned by an open
    block. -/
theorem Coherent.exists_open_of_mem_traverse (h : m.Coherent) {depth : Nat} {c : ConstraintId}
    (hopen : ∀ b, m.blockAt id = .ok b → b.active = true → m.Open id)
    (hc : c ∈ m.traverse true depth id) :
    m.isActive c = true ∧ ∃ block, m.Owns block c ∧ m.Open block := by
  -- The induction is on the depth, and going down keeps what is supposed of the block.
  induction depth generalizing id with
  | zero => exact absurd hc List.not_mem_nil
  | succ depth ih =>
      rw [traverse] at hc
      cases hget : m.blocks[id.index]? with
      | none =>
          rw [hget] at hc
          exact absurd hc List.not_mem_nil
      | some b =>
          have hb := blockAt_eq_ok.mpr hget
          simp only [hget, if_true] at hc
          split at hc
          · rename_i hactive
            have hself := hopen b hb hactive
            rcases List.mem_append.mp hc with hc | hc
            · rcases List.mem_filter.mp hc with ⟨hmem, hc⟩
              exact ⟨hc, id, ⟨b, hb, hmem⟩, hself⟩
            · rcases List.mem_flatMap.mp hc with ⟨child, hchild, hc⟩
              rcases h.parent_of_mem hb hchild with ⟨b', hb', hparent⟩
              refine ih (fun b'' hb'' hactive' => ?_) hc
              rcases Except.ok.inj (hb'.symm.trans hb'') with rfl
              exact hself.below hb' hparent hactive'
          · exact absurd hc List.not_mem_nil

/-- What a traversal lists for an open block it lists for every block above it. -/
theorem Coherent.visits_subset_root (h : m.Coherent) {visits : BlockId → List ConstraintId}
    (hvisits : m.Traversal true visits) (hbelow : m.Below rootBlock id) (hopen : m.Open id) :
    visits id ⊆ visits rootBlock := by
  -- The induction is on the way down from the root.
  induction hbelow with
  | refl => exact List.Subset.refl _
  | @child id parent b hparentBelow hb hparent ih =>
      have hup := hopen.above hb hparent
      rcases hup parent .refl with ⟨p, hp, hactive⟩
      rcases h.mem_children hb hparent with ⟨p', hp', hmem⟩
      rcases Except.ok.inj (hp.symm.trans hp') with rfl
      intro c hc
      refine ih hup ?_
      rw [hvisits.active parent p hp hactive]
      exact List.mem_append_right _ (List.mem_flatMap.mpr ⟨id, hmem, hc⟩)

/-- A walk hands out the active constraints whose blocks are active all the way up, or
    those of the root if it does not descend, and each of them once. -/
structure Exhaustive (m : Model α) : Prop where
  owner : ∀ id c, m.constraintAt id = .ok c → ∃! block, m.Owns block id
  rooted : ∀ block b, m.blockAt block = .ok b → m.Below rootBlock block
  descending : ∀ id, (∃ n, (m.activeConstraints true).answer n = some id) ↔
    (∃ c, m.constraintAt id = .ok c ∧ c.active = true) ∧ ∃ block, m.Owns block id ∧ m.Open block
  flat : ∀ id, (∃ n, (m.activeConstraints false).answer n = some id) ↔
    (∃ c, m.constraintAt id = .ok c ∧ c.active = true) ∧
      ∃ b, m.blockAt rootBlock = .ok b ∧ id ∈ b.constraints ∧ b.active = true
  once : ∀ descend i j id, (m.activeConstraints descend).answer i = some id →
    (m.activeConstraints descend).answer j = some id → i = j

theorem Coherent.existsUnique_owns (h : m.Coherent) {id : ConstraintId} {c : Constraint α}
    (hc : m.constraintAt id = .ok c) : ∃! block, m.Owns block id := by
  have hlt := (Array.getElem?_eq_some_iff.mp (constraintAt_eq_ok.mp hc)).1
  rcases h.exists_mem_constraints hlt with ⟨block, b, hb, hmem⟩
  refine ⟨block, ⟨b, hb, hmem⟩, ?_⟩
  rintro other ⟨b', hb', hmem'⟩
  exact h.eq_of_mem_constraints hb hb' hmem hmem'

/-- A walk that descends hands out what is active all the way up. -/
theorem Coherent.mem_toList_descending (h : m.Coherent) {id : ConstraintId} :
    id ∈ (m.activeConstraints true).toList
      ↔ m.isActive id = true ∧ ∃ block, m.Owns block id ∧ m.Open block := by
  have hvisits := h.tree.traversal_traverse true
  rw [h.toList_activeConstraints hvisits]
  refine ⟨h.exists_open_of_mem_traverse fun b => h.open_root, ?_⟩
  -- The block lists the constraint, so its traversal does, and then that of the root.
  rintro ⟨hactive, block, ⟨b, hb, hmem⟩, hopen⟩
  refine h.visits_subset_root hvisits (h.below_root hb) hopen ?_
  rw [hvisits.active block b hb (hopen.active hb)]
  exact List.mem_append_left _ (List.mem_filter.mpr ⟨hmem, hactive⟩)

/-- A walk that stays at the root hands out what is active there. -/
theorem Coherent.mem_toList_flat (h : m.Coherent) {id : ConstraintId} :
    id ∈ (m.activeConstraints false).toList ↔ m.isActive id = true ∧
      ∃ b, m.blockAt rootBlock = .ok b ∧ id ∈ b.constraints ∧ b.active = true := by
  have hvisits := h.tree.traversal_traverse false
  rcases h.exists_root with ⟨b, hb⟩
  rw [h.toList_activeConstraints hvisits]
  constructor
  · intro hc
    cases hactive : b.active with
    | false =>
        rw [hvisits.inactive _ _ hb hactive] at hc
        exact absurd hc List.not_mem_nil
    | true =>
        rw [hvisits.active _ _ hb hactive, if_neg Bool.false_ne_true, List.append_nil,
          List.mem_filter] at hc
        exact ⟨hc.2, _, hb, hc.1, hactive⟩
  · rintro ⟨hc, b', hb', hmem, hactive⟩
    rw [hvisits.active _ b' hb' hactive]
    exact List.mem_append_left _ (List.mem_filter.mpr ⟨hmem, hc⟩)

/-- The walks of a reachable model lose no active constraint and hand out none twice. -/
theorem Reachable.exhaustive [Scalar α] (h : m.Reachable) (hfits : m.Fits) : m.Exhaustive := by
  have hcoherent := h.coherent hfits
  refine ⟨fun id c => hcoherent.existsUnique_owns, fun block b => hcoherent.below_root,
    fun id => ?_, fun id => ?_, fun descend i j id hi hj => ?_⟩
  · rw [mem_answers_iff, ← isActive_iff, hcoherent.mem_toList_descending]
  · rw [mem_answers_iff, ← isActive_iff, hcoherent.mem_toList_flat]
  · rw [Walk.answer_eq] at hi hj
    have hlt := (List.getElem?_eq_some_iff.mp hi).1
    have hnodup := nodup_activeConstraints h hfits descend
    exact (List.getElem?_inj hlt hnodup).mp (hi.trans hj.symm)

/-- Two blocks below the root with one below each of them. The first block is switched off,
    which hides the active constraint of the active block below it. The constraint of the
    second block is switched off itself, and that of the block below it is handed out. -/
theorem exhaustive_hidden :
    ∃ m : Model Float,
      m = (Model.empty : Model Float).after [.addVariable {}, .addBlock rootBlock "a",
        .addBlock ⟨1⟩ "b", .addBlock rootBlock "c", .addBlock ⟨3⟩ "d",
        .addConstraintTo ⟨2⟩ (.term ⟨0⟩ 1) ⟨none, some 6⟩,
        .addConstraintTo ⟨4⟩ (.term ⟨0⟩ 2) ⟨some 1, none⟩,
        .addConstraintTo ⟨3⟩ (.term ⟨0⟩ 3) ⟨some 0, none⟩,
        .addConstraintTo rootBlock (.term ⟨0⟩ 4) ⟨none, some 9⟩,
        .setBlockActive ⟨1⟩ false, .setConstraintActive ⟨2⟩ false] ∧
      m.Fits ∧ m.Exhaustive ∧ m.blocks.toList.map (fun b => (b.active, b.constraints)) =
        [(true, [⟨3⟩]), (false, []), (true, [⟨0⟩]), (true, [⟨2⟩]), (true, [⟨1⟩])] ∧
      (m.activeConstraints true).toList = [⟨3⟩, ⟨1⟩] ∧
      (m.activeConstraints false).toList = [⟨3⟩] := by
  set m := (Model.empty : Model Float).after [.addVariable {}, .addBlock rootBlock "a",
    .addBlock ⟨1⟩ "b", .addBlock rootBlock "c", .addBlock ⟨3⟩ "d",
    .addConstraintTo ⟨2⟩ (.term ⟨0⟩ 1) ⟨none, some 6⟩,
    .addConstraintTo ⟨4⟩ (.term ⟨0⟩ 2) ⟨some 1, none⟩,
    .addConstraintTo ⟨3⟩ (.term ⟨0⟩ 3) ⟨some 0, none⟩,
    .addConstraintTo rootBlock (.term ⟨0⟩ 4) ⟨none, some 9⟩,
    .setBlockActive ⟨1⟩ false, .setConstraintActive ⟨2⟩ false] with hm
  have hfits : m.Fits := ⟨by decide +kernel, by decide +kernel, by decide +kernel⟩
  exact ⟨m, rfl, hfits, Reachable.exhaustive ⟨_, hm.symm⟩ hfits, by decide +kernel,
    by decide +kernel, by decide +kernel⟩

end Model

end Presolve
