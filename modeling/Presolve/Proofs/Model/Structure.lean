import Presolve.Proofs.Model.Sound
import Presolve.Proofs.Model.Tree

/-!
# The Structure of a Model

How the registries of a reachable model fit together. What a model says about its
entries it says more than once. A block names its parent and is among the children of
its parent. A constraint has a place in the registry and in the list of one block. A
body, a list and a table of names refer to entries of other registries. None of this is
looked at again after an entry has come in, and a walk of the blocks relies on it.

An operation adds one entry at most, and lists it in one place. Whatever was there
before keeps its place: a variable or a constraint stays at its position, and a block
keeps its name and its parent, while its lists only grow at the end. So most of what
holds of the old entries holds of them still, and each invariant below comes down to
what it says of the new one.

An entry that comes in last has the greatest id so far, so the lists are in the order of
ids. This takes ids that are positions, and so it takes registries of fewer than `2 ^ 32`
entries.

## Main definitions

* `Block.Grows`, `Model.Keeps`: All entries of a model are in another one as well.
* `Model.Listed`: Every block and every constraint is listed by a block.
* `Block.Ascending`: The lists of a block are in the order of ids.
* `Model.Distinct`: Siblings have different names.
* `Model.Named`: Names are given to entries that exist.
* `Model.Coherent`: All of these, position by position.
* `Model.Structured`: The registries of a model fit together.

## Theorems

* `Model.Change.keeps`: Changes keep the entries.
* `Model.Listed.change`, `Model.ascending_change`, `Model.Distinct.change`,
  `Model.Named.change`: Changes keep what is known of the entries.
* `Model.Reachable.coherent`: All of it holds of every reachable model.
* `Model.Listed.mem_children`, `Model.Coherent.exists_mem_constraints`: What is listed.
* `Model.Coherent.structured`: What is known by position is known by id.
-/

namespace Presolve

variable {α : Type}

/-- A block that may have been switched and may list more than before. -/
structure Block.Grows (b b' : Block) : Prop where
  name : b'.name = b.name
  parent : b'.parent = b.parent
  children : b.children <+: b'.children
  constraints : b.constraints <+: b'.constraints

/-- The lists of a block are in the order of ids, and nothing is twice in them. -/
structure Block.Ascending (b : Block) : Prop where
  children : b.children.Pairwise (·.index < ·.index)
  constraints : b.constraints.Pairwise (·.index < ·.index)

theorem Block.Grows.refl (b : Block) : b.Grows b := ⟨rfl, rfl, List.prefix_rfl, List.prefix_rfl⟩

theorem Block.Grows.trans {b b' b'' : Block} (h : b.Grows b') (h' : b'.Grows b'') :
    b.Grows b'' where
  name := h'.name.trans h.name
  parent := h'.parent.trans h.parent
  children := h.children.trans h'.children
  constraints := h.constraints.trans h'.constraints

/-- An id comes after all ids of a list if it is greater than each of them. -/
theorem pairwise_append_singleton {r : Registry} {ids : List (Id r)} {id : Id r}
    (h : ids.Pairwise (·.index < ·.index)) (hlt : ∀ c ∈ ids, c.index < id.index) :
    (ids ++ [id]).Pairwise (·.index < ·.index) := by
  refine List.pairwise_append.mpr ⟨h, List.pairwise_singleton _ _, fun c hc d hd => ?_⟩
  rw [List.mem_singleton.mp hd]
  exact hlt c hc

/-- What has a name was given it last or had one before. -/
theorem NameTable.isSome_name?_assign {r : Registry} {t : NameTable r} {id id' : Id r}
    {name : String} (h : ((t.assign id name).name? id').isSome = true) :
    id' = id ∨ (t.name? id').isSome = true := by
  rw [NameTable.name?, NameTable.assign, Std.TreeMap.getElem?_insert] at h
  split at h
  · rename_i heq
    exact Or.inl (Std.LawfulEqOrd.eq_of_compare heq).symm
  · exact Or.inr h

theorem NameTable.name?_empty {r : Registry} (id : Id r) :
    (NameTable.empty : NameTable r).name? id = none := Std.TreeMap.getElem?_emptyc

namespace Model

variable {m m' m'' : Model α}

/-- All entries of a model are in another one as well, at the position they had.
    A constraint keeps its body and its bounds there, and a block grows. -/
structure Keeps (m m' : Model α) : Prop where
  vars : m.vars.size ≤ m'.vars.size
  constraints : ∀ (i : Nat) (c : Constraint α), m.constraints[i]? = some c →
    ∃ c', m'.constraints[i]? = some c' ∧ c'.toRanged = c.toRanged
  blocks : ∀ (i : Nat) (b : Block), m.blocks[i]? = some b →
    ∃ b', m'.blocks[i]? = some b' ∧ b.Grows b'

theorem Keeps.refl (m : Model α) : m.Keeps m where
  vars := le_rfl
  constraints _ c hc := ⟨c, hc, rfl⟩
  blocks _ b hb := ⟨b, hb, .refl b⟩

theorem Keeps.trans (h : m.Keeps m') (h' : m'.Keeps m'') : m.Keeps m'' where
  vars := h.vars.trans h'.vars
  constraints i c hc := by
    rcases h.constraints i c hc with ⟨c', hc', hsame⟩
    rcases h'.constraints i c' hc' with ⟨c'', hc'', hsame'⟩
    exact ⟨c'', hc'', hsame'.trans hsame⟩
  blocks i b hb := by
    rcases h.blocks i b hb with ⟨b', hb', hgrows⟩
    rcases h'.blocks i b' hb' with ⟨b'', hb'', hgrows'⟩
    exact ⟨b'', hb'', hgrows.trans hgrows'⟩

theorem keeps_modifyVariable (m : Model α) (id : VariableId) (f : Variable α → Variable α) :
    m.Keeps (m.modifyVariable id f) where
  vars := (size_vars_modifyVariable id f).ge
  constraints _ c hc := ⟨c, hc, rfl⟩
  blocks _ b hb := ⟨b, hb, .refl b⟩

theorem keeps_modifyConstraint (m : Model α) (id : ConstraintId)
    {f : Constraint α → Constraint α} (hf : ∀ c, (f c).toRanged = c.toRanged) :
    m.Keeps (m.modifyConstraint id f) where
  vars := le_rfl
  constraints i c hc := by
    rw [constraints_modifyConstraint, hc]
    split
    · exact ⟨f c, rfl, hf c⟩
    · exact ⟨c, rfl, rfl⟩
  blocks _ b hb := ⟨b, hb, .refl b⟩

theorem keeps_modifyBlock (m : Model α) (id : BlockId) {f : Block → Block}
    (hf : ∀ b : Block, b.Grows (f b)) : m.Keeps (m.modifyBlock id f) where
  vars := le_rfl
  constraints _ c hc := ⟨c, hc, rfl⟩
  blocks i b hb := by
    rw [blocks_modifyBlock, hb]
    split
    · exact ⟨f b, rfl, hf b⟩
    · exact ⟨b, rfl, .refl b⟩

section Change

variable [Scalar α]

/-- Changes keep the entries. -/
theorem Change.keeps (h : Change m m') : m.Keeps m' := by
  cases h with
  | addVariable v =>
      refine ⟨?_, fun _ c hc => ⟨c, hc, rfl⟩, fun _ b hb => ⟨b, hb, .refl b⟩⟩
      rw [Array.size_push]
      exact Nat.le_succ _
  | addConstraint block b body bounds =>
      have hpushed : m.Keeps { m with
          constraints := m.constraints.push { body, bounds := bounds.dropInfinite } } :=
        ⟨le_rfl, fun _ c hc => ⟨c, getElem?_push_of_eq_some _ hc, rfl⟩,
          fun _ b hb => ⟨b, hb, .refl b⟩⟩
      exact hpushed.trans (keeps_modifyBlock _ block fun b =>
        ⟨rfl, rfl, List.prefix_rfl, List.prefix_append _ _⟩)
  | addBlock parent b name =>
      have hpushed : m.Keeps { m with blocks := m.blocks.push { name, parent := some parent } } :=
        ⟨le_rfl, fun _ c hc => ⟨c, hc, rfl⟩,
          fun _ b hb => ⟨b, getElem?_push_of_eq_some _ hb, .refl b⟩⟩
      exact hpushed.trans (keeps_modifyBlock _ parent fun b =>
        ⟨rfl, rfl, List.prefix_append _ _, List.prefix_rfl⟩)
  | switchBlock id active =>
      exact m.keeps_modifyBlock id fun b => ⟨rfl, rfl, List.prefix_rfl, List.prefix_rfl⟩
  | switchConstraint id active => exact m.keeps_modifyConstraint id fun _ => rfl
  | setBound id side x => exact m.keeps_modifyVariable id _
  | setValue id x => exact m.keeps_modifyVariable id _
  | setFixed id fixed => exact m.keeps_modifyVariable id _
  | nameVariable | nameConstraint =>
      exact ⟨le_rfl, fun _ c hc => ⟨c, hc, rfl⟩, fun _ b hb => ⟨b, hb, .refl b⟩⟩

theorem Changes.keeps (h : Changes m m') : m.Keeps m' := by
  induction h with
  | refl => exact .refl m
  | tail _ hchange ih => exact ih.trans hchange.keeps

end Change

/-- A block other than the root is among the children of its parent, and a constraint
    is in the list of some block. -/
structure Listed (m : Model α) : Prop where
  block : ∀ (i : Nat) (b : Block), m.blocks[i]? = some b → ∀ q, b.parent = some q →
    ∃ p : Block, m.blocks[q.index]? = some p ∧ Id.ofIndex i ∈ p.children
  constraint : ∀ i < m.constraints.size,
    ∃ (q : BlockId) (b : Block), m.blocks[q.index]? = some b ∧ Id.ofIndex i ∈ b.constraints

/-- The parent that a block names lists it among its children. -/
theorem Listed.mem_children (h : m.Listed) {id parent : BlockId} {b : Block}
    (hb : m.blockAt id = .ok b) (hparent : b.parent = some parent) :
    ∃ p, m.blockAt parent = .ok p ∧ id ∈ p.children := by
  rcases h.block _ b (blockAt_eq_ok.mp hb) parent hparent with ⟨p, hp, hmem⟩
  exact ⟨p, blockAt_eq_ok.mpr hp, Id.ofIndex_index id ▸ hmem⟩

/-- What was listed stays listed, so only new entries need a list. -/
theorem Listed.of_keeps (h : m.Listed) (hkeeps : m.Keeps m')
    (hblock : ∀ (i : Nat) (b : Block), m.blocks.size ≤ i → m'.blocks[i]? = some b →
      ∀ q, b.parent = some q →
        ∃ p : Block, m'.blocks[q.index]? = some p ∧ Id.ofIndex i ∈ p.children)
    (hconstraint : ∀ i, m.constraints.size ≤ i → i < m'.constraints.size →
      ∃ (q : BlockId) (b : Block), m'.blocks[q.index]? = some b ∧ Id.ofIndex i ∈ b.constraints) :
    m'.Listed where
  block i b hb q hq := by
    by_cases hi : i < m.blocks.size
    · rcases hkeeps.blocks i _ (Array.getElem?_eq_getElem hi) with ⟨b', hb', hgrows⟩
      rcases Option.some.inj (hb.symm.trans hb') with rfl
      rcases h.block i _ (Array.getElem?_eq_getElem hi) q (hgrows.parent ▸ hq) with ⟨p, hp, hmem⟩
      rcases hkeeps.blocks _ p hp with ⟨p', hp', hgrows'⟩
      exact ⟨p', hp', hgrows'.children.subset hmem⟩
    · exact hblock i b (Nat.le_of_not_lt hi) hb q hq
  constraint i hi := by
    by_cases hold : i < m.constraints.size
    · rcases h.constraint i hold with ⟨q, b, hb, hmem⟩
      rcases hkeeps.blocks _ b hb with ⟨b', hb', hgrows⟩
      exact ⟨q, b', hb', hgrows.constraints.subset hmem⟩
    · exact hconstraint i (Nat.le_of_not_lt hold) hi

theorem listed_empty : (empty : Model α).Listed where
  block i b hb q hq := by
    rw [(eq_of_blocks_empty hb).2] at hq
    cases hq
  constraint i hi := absurd hi (Nat.not_lt_zero i)

/-- Every change lists the entry it adds. -/
theorem Listed.change [Scalar α] (h : m.Listed) (hchange : Change m m') : m'.Listed := by
  have hkeeps := hchange.keeps
  have hsame (hblocks : m'.blocks.size = m.blocks.size)
      (hconstraints : m'.constraints.size = m.constraints.size) : m'.Listed := by
    refine h.of_keeps hkeeps (fun i b hi hb => ?_) fun i hi hlt => ?_
    · have := (Array.getElem?_eq_some_iff.mp hb).1
      omega
    · omega
  cases hchange with
  | addBlock parent p name hp =>
      have hlt : parent.index < m.blocks.size :=
        (Array.getElem?_eq_some_iff.mp (blockAt_eq_ok.mp hp)).1
      refine h.of_keeps hkeeps (fun i b hi hb q hq => ?_) fun i hi hi' =>
        absurd hi (Nat.not_le_of_lt hi')
      rcases exists_of_blocks_modifyBlock hb with ⟨b₀, hb₀, rfl⟩
      -- The position is the last one, and the block there has the parent it was given.
      have hlast : i = m.blocks.size := by
        have := (Array.getElem?_eq_some_iff.mp hb₀).1
        rw [Array.size_push] at this
        omega
      subst hlast
      rw [if_neg hlt.ne, Option.some.inj (Array.getElem?_push_size.symm.trans hb₀).symm] at hq
      cases hq
      exact ⟨_, blocks_modifyBlock_self _ (getElem?_push_of_eq_some _ (blockAt_eq_ok.mp hp)),
        List.mem_append_right _ (List.mem_singleton_self _)⟩
  | addConstraint block b body bounds hb =>
      refine h.of_keeps hkeeps (fun i b' hi hb' => ?_) fun i hi hlt => ?_
      · have := (Array.getElem?_eq_some_iff.mp hb').1
        rw [size_blocks_modifyBlock] at this
        exact absurd hi (Nat.not_le_of_lt this)
      · rw [constraints_modifyBlock, Array.size_push] at hlt
        have hlast : i = m.constraints.size := by omega
        subst hlast
        exact ⟨block, _, blocks_modifyBlock_self _ (blockAt_eq_ok.mp hb),
          List.mem_append_right _ (List.mem_singleton_self _)⟩
  | addVariable | nameVariable | nameConstraint => exact hsame rfl rfl
  | switchBlock => exact hsame (size_blocks_modifyBlock ..) rfl
  | switchConstraint => exact hsame rfl (size_constraints_modifyConstraint ..)
  | setBound | setValue | setFixed => exact hsame rfl rfl

theorem ascending_empty (i : Nat) (b : Block) (hb : (empty : Model α).blocks[i]? = some b) :
    b.Ascending := by
  rw [(eq_of_blocks_empty hb).2]
  exact ⟨.nil, .nil⟩

/-- Every change keeps the lists in order, as what is new has the greatest id. -/
theorem ascending_change [Scalar α] (htree : m.Treelike) (howning : m.Owning) (hfits : m.Fits)
    (h : ∀ (i : Nat) (b : Block), m.blocks[i]? = some b → b.Ascending)
    (hchange : Change m m') :
    ∀ (i : Nat) (b : Block), m'.blocks[i]? = some b → b.Ascending := by
  cases hchange with
  | addBlock parent p name hp =>
      have hindex : (Id.ofIndex m.blocks.size : BlockId).index = m.blocks.size :=
        Id.index_ofIndex hfits.blocks
      have hlt : parent.index < m.blocks.size :=
        (Array.getElem?_eq_some_iff.mp (blockAt_eq_ok.mp hp)).1
      refine forall_getElem?_modify (forall_getElem?_push h ⟨.nil, .nil⟩) fun b hb hascending => ?_
      -- The children so far are blocks there were before.
      have hold : m.blocks[parent.index]? = some b :=
        (Array.getElem?_push.trans (if_neg hlt.ne)).symm.trans hb
      refine ⟨pairwise_append_singleton hascending.children fun c hc => ?_, hascending.constraints⟩
      rcases htree.child _ b hold c hc with ⟨b', q, hb', -⟩
      rw [hindex]
      exact (Array.getElem?_eq_some_iff.mp hb').1
  | addConstraint block b₀ body bounds hb₀ =>
      have hindex : (Id.ofIndex m.constraints.size : ConstraintId).index = m.constraints.size :=
        Id.index_ofIndex hfits.constraints
      refine forall_getElem?_modify h fun b hb hascending => ?_
      refine ⟨hascending.children, pairwise_append_singleton hascending.constraints fun c hc => ?_⟩
      rw [hindex]
      exact howning.lt _ b hb c hc
  | switchBlock id active =>
      exact forall_getElem?_modify h fun b _ hascending =>
        ⟨hascending.children, hascending.constraints⟩
  | addVariable | switchConstraint | setBound | setValue | setFixed | nameVariable
  | nameConstraint => exact h

/-- The name of a block, if there is one with this id. -/
def blockName? (m : Model α) (id : BlockId) : Option String := m.blocks[id.index]?.map Block.name

theorem Keeps.blockName? (h : m.Keeps m') {id : BlockId} {b : Block}
    (hb : m.blocks[id.index]? = some b) : m'.blockName? id = m.blockName? id := by
  rcases h.blocks _ b hb with ⟨b', hb', hgrows⟩
  rw [Model.blockName?, Model.blockName?, hb, hb', Option.map_some, Option.map_some, hgrows.name]

theorem blockName?_ne_of_hasChildNamed {b : Block} {name : String}
    (h : m.hasChildNamed b name = false) {c : BlockId} (hc : c ∈ b.children) :
    m.blockName? c ≠ some name := by
  have hother := List.any_eq_false.mp h c hc
  intro hsame
  rcases Option.map_eq_some_iff.mp hsame with ⟨b', hb', hname⟩
  rw [hb', Option.any_some, hname, beq_self_eq_true] at hother
  exact hother rfl

theorem blockName?_addBlock (hsize : m.blocks.size < UInt32.size) {parent : BlockId}
    (hlt : parent.index < m.blocks.size) {name : String} {f : Block → Block} :
    ({ m with blocks := m.blocks.push { name, parent := some parent } }.modifyBlock parent
      f).blockName? (Id.ofIndex m.blocks.size) = some name := by
  rw [blockName?, blocks_modifyBlock, Id.index_ofIndex hsize, if_neg hlt.ne,
    Array.getElem?_push_size, Option.map_some]

/-- The children of a block have different names. -/
def Distinct (m : Model α) : Prop :=
  ∀ (i : Nat) (b : Block), m.blocks[i]? = some b → (b.children.map m.blockName?).Nodup

theorem distinct_empty : (empty : Model α).Distinct := by
  intro i b hb
  rw [(eq_of_blocks_empty hb).2]
  exact List.nodup_nil

/-- Blocks keep their names, so the names of the same children are the same. -/
theorem Distinct.nodup_of_keeps (h : m.Distinct) (htree : m.Treelike) (hkeeps : m.Keeps m')
    {i : Nat} {b : Block} (hb : m.blocks[i]? = some b) :
    (b.children.map m'.blockName?).Nodup := by
  have hnames : b.children.map m'.blockName? = b.children.map m.blockName? := by
    refine List.map_congr_left fun c hc => ?_
    rcases htree.child i b hb c hc with ⟨b', q, hb', -⟩
    exact hkeeps.blockName? hb'
  rw [hnames]
  exact h i b hb

/-- Every change keeps the names of siblings different. -/
theorem Distinct.change [Scalar α] (h : m.Distinct) (htree : m.Treelike)
    (hsize : m.blocks.size < UInt32.size) (hchange : Change m m') : m'.Distinct := by
  have hkeeps := hchange.keeps
  cases hchange with
  | addBlock parent p name hp hname =>
      have hlt : parent.index < m.blocks.size :=
        (Array.getElem?_eq_some_iff.mp (blockAt_eq_ok.mp hp)).1
      intro i b hb
      rcases exists_of_blocks_modifyBlock hb with ⟨b₀, hb₀, rfl⟩
      rw [Array.getElem?_push] at hb₀
      split at hb₀
      · -- The new block has no children.
        rename_i hlast
        cases hb₀
        rw [if_neg (hlast ▸ hlt.ne)]
        exact List.nodup_nil
      · have hold := h.nodup_of_keeps htree hkeeps hb₀
        split
        · rename_i hi
          subst hi
          rcases Option.some.inj (hb₀.symm.trans (blockAt_eq_ok.mp hp)) with rfl
          rw [List.map_append, List.nodup_append]
          refine ⟨hold, List.nodup_singleton _, fun x hx y hy => ?_⟩
          rw [List.mem_singleton.mp hy, blockName?_addBlock hsize hlt]
          rcases List.mem_map.mp hx with ⟨c, hc, rfl⟩
          rcases htree.child _ _ hb₀ c hc with ⟨b', q, hb', -⟩
          rw [hkeeps.blockName? hb']
          exact blockName?_ne_of_hasChildNamed hname hc
        · exact hold
  | addConstraint block b₀ body bounds hb₀ =>
      intro i b hb
      rcases exists_of_blocks_modifyBlock hb with ⟨b₀, hb₀, rfl⟩
      have hold := h.nodup_of_keeps htree hkeeps hb₀
      split <;> exact hold
  | switchBlock id active =>
      intro i b hb
      rcases exists_of_blocks_modifyBlock hb with ⟨b₀, hb₀, rfl⟩
      have hold := h.nodup_of_keeps htree hkeeps hb₀
      split <;> exact hold
  | addVariable | switchConstraint | setBound | setValue | setFixed | nameVariable
  | nameConstraint => exact h

/-- Names are given to variables and constraints that exist. -/
structure Named (m : Model α) : Prop where
  vars : ∀ id, (m.varNames.name? id).isSome = true → id.index < m.vars.size
  constraints : ∀ id, (m.constraintNames.name? id).isSome = true → id.index < m.constraints.size

theorem named_empty : (empty : Model α).Named where
  vars id h := by
    rw [empty, NameTable.name?_empty] at h
    cases h
  constraints id h := by
    rw [empty, NameTable.name?_empty] at h
    cases h

/-- With the same names, what exists keeps existing. -/
theorem Named.of_keeps (h : m.Named) (hkeeps : m.Keeps m') (hvars : m'.varNames = m.varNames)
    (hconstraints : m'.constraintNames = m.constraintNames) : m'.Named where
  vars id hid := (h.vars id (hvars ▸ hid)).trans_le hkeeps.vars
  constraints id hid := by
    have hlt := h.constraints id (hconstraints ▸ hid)
    rcases hkeeps.constraints _ _ (Array.getElem?_eq_getElem hlt) with ⟨c, hc, -⟩
    exact (Array.getElem?_eq_some_iff.mp hc).1

/-- Every change gives names to entries that exist. -/
theorem Named.change [Scalar α] (h : m.Named) (hchange : Change m m') : m'.Named := by
  have hkeeps := hchange.keeps
  cases hchange with
  | nameVariable id v name hv =>
      refine ⟨fun id' hid' => ?_, h.constraints⟩
      rcases NameTable.isSome_name?_assign hid' with rfl | hid'
      · exact (Array.getElem?_eq_some_iff.mp (variableAt_eq_ok.mp hv)).1
      · exact h.vars id' hid'
  | nameConstraint id c name hc =>
      refine ⟨h.vars, fun id' hid' => ?_⟩
      rcases NameTable.isSome_name?_assign hid' with rfl | hid'
      · exact (Array.getElem?_eq_some_iff.mp (constraintAt_eq_ok.mp hc)).1
      · exact h.constraints id' hid'
  | addVariable | addConstraint | addBlock | switchBlock | switchConstraint | setBound | setValue
  | setFixed => exact h.of_keeps hkeeps rfl rfl

/-- What is known of the registries of a model, position by position. -/
structure Coherent (m : Model α) : Prop where
  root : 0 < m.blocks.size
  tree : m.Treelike
  owning : m.Owning
  listed : m.Listed
  ascending : ∀ (i : Nat) (b : Block), m.blocks[i]? = some b → b.Ascending
  distinct : m.Distinct
  named : m.Named

theorem coherent_empty : (empty : Model α).Coherent :=
  ⟨Nat.one_pos, treelike_empty, owning_empty, listed_empty, ascending_empty, distinct_empty,
    named_empty⟩

theorem Coherent.change [Scalar α] (h : m.Coherent) (hfits : m.Fits) (hchange : Change m m') :
    m'.Coherent where
  root := by
    rcases hchange.keeps.blocks 0 _ (Array.getElem?_eq_getElem h.root) with ⟨b, hb, -⟩
    exact (Array.getElem?_eq_some_iff.mp hb).1
  tree := h.tree.change hfits.blocks hchange
  owning := h.owning.change hfits hchange
  listed := h.listed.change hchange
  ascending := ascending_change h.tree h.owning hfits h.ascending hchange
  distinct := h.distinct.change h.tree hfits.blocks hchange
  named := h.named.change hchange

/-- The registries of a reachable model fit together as long as they have not outgrown
    their ids. -/
theorem Reachable.coherent [Scalar α] (h : m.Reachable) (hfits : m.Fits) : m.Coherent := by
  refine h.induction (P := fun m => m.Fits → m.Coherent) (fun _ => coherent_empty) ?_ hfits
  intro a b hchange ih hb
  have ha := hchange.fits hb
  exact (ih ha).change ha hchange

/-- The registries of a model fit together. -/
structure Structured (m : Model α) : Prop where
  root : ∃ b, m.blockAt rootBlock = .ok b ∧ b.parent = none
  /-- Every other block has an older parent, which lists it once, and no other block
      lists it. -/
  parent : ∀ id b, m.blockAt id = .ok b → id ≠ rootBlock →
    ∃ q p, b.parent = some q ∧ q.index < id.index ∧ m.blockAt q = .ok p ∧
      p.children.count id = 1 ∧
      ∀ other b', m.blockAt other = .ok b' → other ≠ q → id ∉ b'.children
  /-- What a block lists as its children are blocks other than the root. -/
  children : ∀ id b, m.blockAt id = .ok b → ∀ c ∈ b.children,
    c ≠ rootBlock ∧ ∃ b', m.blockAt c = .ok b'
  ascending : ∀ id b, m.blockAt id = .ok b → b.Ascending
  /-- Every constraint is listed once by one block, and no other block lists it. -/
  owner : ∀ id : ConstraintId, id.index < m.constraints.size →
    ∃ block b, m.blockAt block = .ok b ∧ b.constraints.count id = 1 ∧
      ∀ other b', m.blockAt other = .ok b' → other ≠ block → id ∉ b'.constraints
  /-- What a block lists as its constraints are constraints of the model. -/
  constraints : ∀ block b, m.blockAt block = .ok b → ∀ id ∈ b.constraints,
    id.index < m.constraints.size
  siblings : ∀ id b, m.blockAt id = .ok b → (b.children.map m.blockName?).Nodup
  bodies : ∀ id c, m.constraintAt id = .ok c → ∀ v ∈ c.body.occurrences, v.index < m.vars.size
  named : m.Named

/-- A child of a block names it as its parent. -/
theorem Coherent.parent_of_mem (h : m.Coherent) {id c : BlockId} {b : Block}
    (hb : m.blockAt id = .ok b) (hc : c ∈ b.children) :
    ∃ b', m.blockAt c = .ok b' ∧ b'.parent = some id := by
  rcases h.tree.child _ b (blockAt_eq_ok.mp hb) c hc with ⟨b', q, hb', hq, hindex⟩
  exact ⟨b', blockAt_eq_ok.mpr hb', Id.index_inj hindex ▸ hq⟩

theorem Coherent.mem_children (h : m.Coherent) {id parent : BlockId} {b : Block}
    (hb : m.blockAt id = .ok b) (hparent : b.parent = some parent) :
    ∃ p, m.blockAt parent = .ok p ∧ id ∈ p.children :=
  h.listed.mem_children hb hparent

/-- Every constraint is listed by a block. -/
theorem Coherent.exists_mem_constraints (h : m.Coherent) {id : ConstraintId}
    (hid : id.index < m.constraints.size) :
    ∃ block b, m.blockAt block = .ok b ∧ id ∈ b.constraints := by
  rcases h.listed.constraint id.index hid with ⟨block, b, hb, hmem⟩
  exact ⟨block, b, blockAt_eq_ok.mpr hb, Id.ofIndex_index id ▸ hmem⟩

/-- Blocks that list one constraint are one block. -/
theorem Coherent.eq_of_mem_constraints (h : m.Coherent) {block other : BlockId} {b b' : Block}
    {id : ConstraintId} (hb : m.blockAt block = .ok b) (hb' : m.blockAt other = .ok b')
    (hmem : id ∈ b.constraints) (hmem' : id ∈ b'.constraints) : other = block :=
  Id.index_inj
    (h.owning.unique _ _ b' b (blockAt_eq_ok.mp hb') (blockAt_eq_ok.mp hb) id hmem' hmem)

/-- What is known by position is known by id. -/
theorem Coherent.structured [Scalar α] (h : m.Coherent) (hsound : m.Sound) : m.Structured where
  root := by
    have hb := Array.getElem?_eq_getElem h.root
    exact ⟨_, blockAt_eq_ok.mpr hb, h.tree.root _ hb⟩
  parent id b hb hne := by
    have hget := blockAt_eq_ok.mp hb
    rcases h.tree.parent _ b hget fun hzero => hne (Id.index_inj hzero) with ⟨q, hq, hlt⟩
    rcases h.mem_children hb hq with ⟨p, hp, hmem⟩
    refine ⟨q, p, hq, hlt, hp, List.count_eq_one_of_mem
      (h.tree.nodup _ p (blockAt_eq_ok.mp hp)) hmem, fun other b' hb' hother hmem' => ?_⟩
    -- A block that listed it would be its parent as well.
    rcases h.parent_of_mem hb' hmem' with ⟨b'', hb'', hparent⟩
    rcases Except.ok.inj (hb.symm.trans hb'') with rfl
    exact hother (Option.some.inj (hparent.symm.trans hq))
  children id b hb c hc := by
    rcases h.parent_of_mem hb hc with ⟨b', hb', hparent⟩
    refine ⟨fun hroot => ?_, b', hb'⟩
    rw [hroot] at hb'
    rw [h.tree.root b' (blockAt_eq_ok.mp hb')] at hparent
    cases hparent
  ascending id b hb := h.ascending _ b (blockAt_eq_ok.mp hb)
  owner id hid := by
    rcases h.exists_mem_constraints hid with ⟨block, b, hb, hmem⟩
    exact ⟨block, b, hb, List.count_eq_one_of_mem (h.owning.nodup _ b (blockAt_eq_ok.mp hb)) hmem,
      fun other b' hb' hother hmem' => hother (h.eq_of_mem_constraints hb hb' hmem hmem')⟩
  constraints block b hb id hid := h.owning.lt _ b (blockAt_eq_ok.mp hb) id hid
  siblings id b hb := h.distinct _ b (blockAt_eq_ok.mp hb)
  bodies id c hc := (hsound.constraints _ c (constraintAt_eq_ok.mp hc)).vars
  named := h.named

end Model

end Presolve
