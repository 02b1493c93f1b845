import Mathlib.Data.List.Nodup
import Presolve.Proofs.Model.Change
import Presolve.Proofs.Model.Walk

/-!
# The Tree of Blocks

The blocks of a reachable model form a tree, and each constraint is listed by one
block. A walk therefore hands out no constraint twice. What carries the argument
is that no block is opened twice: a block comes onto the stack when its parent is
opened, so as long as every block that was opened or waits has its parent among
those opened before, the children of the next block are all new.

Ids are words of 32 bits, so all of this holds as long as no registry has grown
beyond them. Registries only ever grow, so one that is small enough now always
was.

## Main definitions

* `Model.Fits`: Every entry has an id of its own.
* `Model.Treelike`: Parents and children of blocks agree.
* `Model.Owning`: No constraint is listed twice.
* `Walk.Frontier`: What holds of the blocks of a walk under way.

## Theorems

* `Model.Treelike.push`, `Model.Treelike.addChild`: A new block, and listing it.
* `Model.Owning.addListed`: Listing a constraint that was listed nowhere.
* `Model.Reachable.treelike_owning`: All reachable models that fit are trees.
* `Walk.Frontier.open_next`: Opening a block keeps the frontier.
* `Model.nodup_activeConstraints`: A walk hands out no constraint twice.
-/

namespace Presolve

variable {α : Type}

namespace Model

/-- Every entry of the model has an id of its own. -/
structure Fits (m : Model α) : Prop where
  vars : m.vars.size < UInt32.size
  constraints : m.constraints.size < UInt32.size
  blocks : m.blocks.size < UInt32.size

/-- The root has no parent, every other block has one that is older, and the
    children of a block are blocks with this parent, each listed once. -/
structure Treelike (m : Model α) : Prop where
  root : ∀ b : Block, m.blocks[0]? = some b → b.parent = none
  parent : ∀ (i : Nat) (b : Block), m.blocks[i]? = some b → i ≠ 0 →
    ∃ q, b.parent = some q ∧ q.index < i
  child : ∀ (i : Nat) (b : Block), m.blocks[i]? = some b → ∀ c ∈ b.children,
    ∃ (b' : Block) (q : BlockId), m.blocks[c.index]? = some b' ∧ b'.parent = some q ∧ q.index = i
  nodup : ∀ (i : Nat) (b : Block), m.blocks[i]? = some b → b.children.Nodup

/-- The constraints listed by a block exist, and none is listed twice. -/
structure Owning (m : Model α) : Prop where
  lt : ∀ (i : Nat) (b : Block), m.blocks[i]? = some b → ∀ c ∈ b.constraints,
    c.index < m.constraints.size
  nodup : ∀ (i : Nat) (b : Block), m.blocks[i]? = some b → b.constraints.Nodup
  unique : ∀ (i j : Nat) (b b' : Block), m.blocks[i]? = some b → m.blocks[j]? = some b' →
    ∀ c ∈ b.constraints, c ∈ b'.constraints → i = j

variable {m m' : Model α}

theorem exists_of_blocks_modifyBlock {id : BlockId} {f : Block → Block} {i : Nat} {b : Block}
    (h : (m.modifyBlock id f).blocks[i]? = some b) :
    ∃ b₀, m.blocks[i]? = some b₀ ∧ b = if id.index = i then f b₀ else b₀ := by
  rw [blocks_modifyBlock] at h
  split at h
  · rename_i hi
    rcases Option.map_eq_some_iff.mp h with ⟨b₀, hb₀, rfl⟩
    exact ⟨b₀, hb₀, (if_pos hi).symm⟩
  · rename_i hi
    exact ⟨b, h, (if_neg hi).symm⟩

/-- A change of blocks that keeps their parents and children keeps the tree. -/
theorem Treelike.modifyBlock (h : m.Treelike) {id : BlockId} {f : Block → Block}
    (hparent : ∀ b, (f b).parent = b.parent) (hchildren : ∀ b, (f b).children = b.children) :
    (m.modifyBlock id f).Treelike := by
  -- Every entry has the parent and the children of the one it was.
  have hentry {i : Nat} {b : Block} (hb : (m.modifyBlock id f).blocks[i]? = some b) :
      ∃ b₀, m.blocks[i]? = some b₀ ∧ b.parent = b₀.parent ∧ b.children = b₀.children := by
    rcases exists_of_blocks_modifyBlock hb with ⟨b₀, hb₀, rfl⟩
    refine ⟨b₀, hb₀, ?_⟩
    split
    · exact ⟨hparent b₀, hchildren b₀⟩
    · exact ⟨rfl, rfl⟩
  refine ⟨fun b hb => ?_, fun i b hb hi => ?_, fun i b hb c hc => ?_, fun i b hb => ?_⟩
  · rcases hentry hb with ⟨b₀, hb₀, hp, -⟩
    exact hp.trans (h.root b₀ hb₀)
  · rcases hentry hb with ⟨b₀, hb₀, hp, -⟩
    rw [hp]
    exact h.parent i b₀ hb₀ hi
  · rcases hentry hb with ⟨b₀, hb₀, -, hcs⟩
    rcases h.child i b₀ hb₀ c (hcs ▸ hc) with ⟨b', q, hb', hq, hqi⟩
    refine ⟨if id.index = c.index then f b' else b', q, ?_, ?_, hqi⟩
    · rw [blocks_modifyBlock, hb']
      split <;> rfl
    · split
      · exact (hparent b').trans hq
      · exact hq
  · rcases hentry hb with ⟨b₀, hb₀, -, hcs⟩
    rw [hcs]
    exact h.nodup i b₀ hb₀

/-- A new block that is listed nowhere keeps the tree. -/
theorem Treelike.push (h : m.Treelike) {parent : BlockId} (hlt : parent.index < m.blocks.size)
    (name : String) :
    ({ m with blocks := m.blocks.push { name, parent := some parent } } : Model α).Treelike := by
  -- An entry is the new block, which has no children, or an old one.
  have hentry {i : Nat} {b : Block}
      (hb : (m.blocks.push { name, parent := some parent })[i]? = some b) :
      (i = m.blocks.size ∧ b = { name, parent := some parent }) ∨ m.blocks[i]? = some b := by
    rw [Array.getElem?_push] at hb
    split at hb
    · rename_i hi
      exact Or.inl ⟨hi, (Option.some.inj hb).symm⟩
    · exact Or.inr hb
  refine ⟨fun b hb => ?_, fun i b hb hi => ?_, fun i b hb c hc => ?_, fun i b hb => ?_⟩
  · rcases hentry hb with ⟨hzero, -⟩ | hb
    · omega
    · exact h.root b hb
  · rcases hentry hb with ⟨rfl, rfl⟩ | hb
    · exact ⟨parent, rfl, hlt⟩
    · exact h.parent i b hb hi
  · rcases hentry hb with ⟨-, rfl⟩ | hb
    · exact absurd hc List.not_mem_nil
    · rcases h.child i b hb c hc with ⟨b', q, hb', hq⟩
      exact ⟨b', q, getElem?_push_of_eq_some _ hb', hq⟩
  · rcases hentry hb with ⟨-, rfl⟩ | hb
    · exact List.nodup_nil
    · exact h.nodup i b hb

/-- Listing a block below its parent keeps the tree if it was not listed there. -/
theorem Treelike.addChild (h : m.Treelike) {id c : BlockId} {b' : Block}
    (hc : m.blocks[c.index]? = some b') (hparent : b'.parent = some id)
    (hnew : ∀ b, m.blocks[id.index]? = some b → c ∉ b.children) :
    (m.modifyBlock id fun b => { b with children := b.children ++ [c] }).Treelike := by
  set link : Block → Block := fun b => { b with children := b.children ++ [c] } with hlink
  have hsame (i : Nat) (b : Block) : (if id.index = i then link b else b).parent = b.parent := by
    split <;> rfl
  have hkept {i : Nat} {b : Block} (hb : m.blocks[i]? = some b) :
      (m.modifyBlock id link).blocks[i]? = some (if id.index = i then link b else b) := by
    rw [blocks_modifyBlock, hb]
    split <;> rfl
  refine ⟨fun b hb => ?_, fun i b hb hi => ?_, fun i b hb d hd => ?_, fun i b hb => ?_⟩
  · rcases exists_of_blocks_modifyBlock hb with ⟨b₀, hb₀, rfl⟩
    rw [hsame]
    exact h.root b₀ hb₀
  · rcases exists_of_blocks_modifyBlock hb with ⟨b₀, hb₀, rfl⟩
    rw [hsame]
    exact h.parent i b₀ hb₀ hi
  · rcases exists_of_blocks_modifyBlock hb with ⟨b₀, hb₀, rfl⟩
    -- A child is one there was or the one that is listed now.
    have hold (hd₀ : d ∈ b₀.children) : ∃ (b : Block) (q : BlockId),
        (m.modifyBlock id link).blocks[d.index]? = some b ∧ b.parent = some q ∧ q.index = i := by
      rcases h.child i b₀ hb₀ d hd₀ with ⟨b, q, hb, hq, hqi⟩
      exact ⟨_, q, hkept hb, (hsame _ b).trans hq, hqi⟩
    by_cases hi : id.index = i
    · rw [if_pos hi] at hd
      rcases List.mem_append.mp hd with hd₀ | hd₀
      · exact hold hd₀
      · rw [List.mem_singleton.mp hd₀]
        exact ⟨_, id, hkept hc, (hsame _ b').trans hparent, hi⟩
    · rw [if_neg hi] at hd
      exact hold hd
  · rcases exists_of_blocks_modifyBlock hb with ⟨b₀, hb₀, rfl⟩
    have hnodup := h.nodup i b₀ hb₀
    by_cases hi : id.index = i
    · rw [if_pos hi]
      refine List.nodup_append.mpr ⟨hnodup, List.nodup_singleton c, fun d hd e he heq => ?_⟩
      rw [heq, List.mem_singleton.mp he] at hd
      exact hnew b₀ (hi ▸ hb₀) hd
    · rw [if_neg hi]
      exact hnodup

/-- A new block comes below its parent and is listed there. -/
theorem Treelike.addBlock (h : m.Treelike) (hsize : m.blocks.size < UInt32.size)
    {parent : BlockId} {p : Block} (hp : m.blocks[parent.index]? = some p) (name : String) :
    ({ m with blocks := m.blocks.push { name, parent := some parent } }.modifyBlock parent
      fun b => { b with children := b.children ++ [Id.ofIndex m.blocks.size] }).Treelike := by
  have hlt : parent.index < m.blocks.size := (Array.getElem?_eq_some_iff.mp hp).1
  have hindex : (Id.ofIndex m.blocks.size : BlockId).index = m.blocks.size := Id.index_ofIndex hsize
  have hlast : (m.blocks.push { name, parent := some parent })[
      (Id.ofIndex m.blocks.size : BlockId).index]? = some { name, parent := some parent } := by
    rw [hindex]
    exact Array.getElem?_push_size
  refine (h.push hlt name).addChild hlast rfl fun b hb hmem => ?_
  -- The new id names no block so far, and every child does.
  have hold : m.blocks[parent.index]? = some b :=
    (Array.getElem?_push.trans (if_neg hlt.ne)).symm.trans hb
  rcases h.child _ b hold _ hmem with ⟨b', q, hb', -⟩
  have := (Array.getElem?_eq_some_iff.mp hb').1
  omega

/-- A change of blocks that keeps their lists of constraints lists none twice. -/
theorem Owning.modifyBlock (h : m.Owning) {id : BlockId} {f : Block → Block}
    (hf : ∀ b, (f b).constraints = b.constraints) : (m.modifyBlock id f).Owning := by
  have hentry {i : Nat} {b : Block} (hb : (m.modifyBlock id f).blocks[i]? = some b) :
      ∃ b₀, m.blocks[i]? = some b₀ ∧ b.constraints = b₀.constraints := by
    rcases exists_of_blocks_modifyBlock hb with ⟨b₀, hb₀, rfl⟩
    refine ⟨b₀, hb₀, ?_⟩
    split
    · exact hf b₀
    · rfl
  refine ⟨fun i b hb c hc => ?_, fun i b hb => ?_, fun i j b b' hb hb' c hc hc' => ?_⟩
  · rcases hentry hb with ⟨b₀, hb₀, hcs⟩
    exact h.lt i b₀ hb₀ c (hcs ▸ hc)
  · rcases hentry hb with ⟨b₀, hb₀, hcs⟩
    exact hcs ▸ h.nodup i b₀ hb₀
  · rcases hentry hb with ⟨b₀, hb₀, hcs⟩
    rcases hentry hb' with ⟨b₀', hb₀', hcs'⟩
    exact h.unique i j b₀ b₀' hb₀ hb₀' c (hcs ▸ hc) (hcs' ▸ hc')

/-- Listing a constraint that is listed nowhere lists none twice. -/
theorem Owning.addListed (h : m.Owning) {id : BlockId} {c : ConstraintId}
    (hlt : c.index < m.constraints.size)
    (hnew : ∀ (i : Nat) (b : Block), m.blocks[i]? = some b → c ∉ b.constraints) :
    (m.modifyBlock id fun b => { b with constraints := b.constraints ++ [c] }).Owning := by
  -- An entry lists what it did, and the new constraint if it is the block.
  have hmem {i : Nat} {b : Block} {d : ConstraintId} (hb : (m.modifyBlock id fun b =>
      { b with constraints := b.constraints ++ [c] }).blocks[i]? = some b)
      (hd : d ∈ b.constraints) :
      (∃ b₀ : Block, m.blocks[i]? = some b₀ ∧ d ∈ b₀.constraints) ∨ (id.index = i ∧ d = c) := by
    rcases exists_of_blocks_modifyBlock hb with ⟨b₀, hb₀, rfl⟩
    by_cases hi : id.index = i
    · rw [if_pos hi] at hd
      rcases List.mem_append.mp hd with hd | hd
      · exact Or.inl ⟨b₀, hb₀, hd⟩
      · exact Or.inr ⟨hi, List.mem_singleton.mp hd⟩
    · rw [if_neg hi] at hd
      exact Or.inl ⟨b₀, hb₀, hd⟩
  refine ⟨fun i b hb d hd => ?_, fun i b hb => ?_, fun i j b b' hb hb' d hd hd' => ?_⟩
  · rcases hmem hb hd with ⟨b₀, hb₀, hd₀⟩ | ⟨-, rfl⟩
    · exact h.lt i b₀ hb₀ d hd₀
    · exact hlt
  · rcases exists_of_blocks_modifyBlock hb with ⟨b₀, hb₀, rfl⟩
    have hnodup := h.nodup i b₀ hb₀
    split
    · refine List.nodup_append.mpr ⟨hnodup, List.nodup_singleton _, fun d hd e he heq => ?_⟩
      rw [heq, List.mem_singleton.mp he] at hd
      exact hnew i b₀ hb₀ hd
    · exact hnodup
  · rcases hmem hb hd with ⟨b₀, hb₀, hd₀⟩ | ⟨hi, rfl⟩
    · rcases hmem hb' hd' with ⟨b₀', hb₀', hd₀'⟩ | ⟨-, rfl⟩
      · exact h.unique i j b₀ b₀' hb₀ hb₀' d hd₀ hd₀'
      · exact absurd hd₀ (hnew i b₀ hb₀)
    · rcases hmem hb' hd' with ⟨b₀', hb₀', hd₀'⟩ | ⟨hj, -⟩
      · exact absurd hd₀' (hnew j b₀' hb₀')
      · exact hi.symm.trans hj

/-- A new constraint is listed by one block and once. -/
theorem Owning.addConstraint (h : m.Owning) (hsize : m.constraints.size < UInt32.size)
    (c : Constraint α) (block : BlockId) :
    ({ m with constraints := m.constraints.push c }.modifyBlock block fun b =>
      { b with constraints := b.constraints ++ [Id.ofIndex m.constraints.size] }).Owning := by
  have hindex : (Id.ofIndex m.constraints.size : ConstraintId).index = m.constraints.size :=
    Id.index_ofIndex hsize
  have hpushed : ({ m with constraints := m.constraints.push c } : Model α).Owning := by
    refine ⟨fun i b hb d hd => ?_, h.nodup, h.unique⟩
    rw [Array.size_push]
    exact (h.lt i b hb d hd).trans (Nat.lt_succ_self _)
  refine hpushed.addListed ?_ fun i b hb hmem => ?_
  · rw [hindex, Array.size_push]
    exact Nat.lt_succ_self _
  · -- What is listed so far are constraints that exist.
    have := h.lt i b hb _ hmem
    omega

/-- A new block lists no constraints. -/
theorem Owning.addBlock (h : m.Owning) {new : Block} (hnew : new.constraints = [])
    {parent : BlockId} {f : Block → Block} (hf : ∀ b, (f b).constraints = b.constraints) :
    ({ m with blocks := m.blocks.push new }.modifyBlock parent f).Owning := by
  refine Owning.modifyBlock ?_ hf
  -- Whatever lists a constraint is an old block.
  have hentry {i : Nat} {b : Block} {c : ConstraintId} (hb : (m.blocks.push new)[i]? = some b)
      (hc : c ∈ b.constraints) : m.blocks[i]? = some b := by
    rw [Array.getElem?_push] at hb
    split at hb
    · rw [Option.some.injEq] at hb
      rw [← hb, hnew] at hc
      exact absurd hc List.not_mem_nil
    · exact hb
  refine ⟨fun i b hb c hc => ?_, fun i b hb => ?_, fun i j b b' hb hb' c hc hc' => ?_⟩
  · exact h.lt i b (hentry hb hc) c hc
  · by_cases hnil : b.constraints = []
    · rw [hnil]
      exact List.nodup_nil
    · rcases List.exists_mem_of_ne_nil _ hnil with ⟨c, hc⟩
      exact h.nodup i b (hentry hb hc)
  · exact h.unique i j b b' (hentry hb hc) (hentry hb' hc') c hc hc'

theorem eq_of_blocks_empty {i : Nat} {b : Block} (hb : (empty : Model α).blocks[i]? = some b) :
    i = 0 ∧ b = { name := "", parent := none } := by
  rcases Array.getElem?_eq_some_iff.mp hb with ⟨hi, hget⟩
  have hzero : i = 0 := Nat.lt_one_iff.mp hi
  subst hzero
  exact ⟨rfl, hget.symm⟩

theorem treelike_empty : (empty : Model α).Treelike := by
  refine ⟨fun b hb => ?_, fun i b hb hi => ?_, fun i b hb c hc => ?_, fun i b hb => ?_⟩
  · rw [(eq_of_blocks_empty hb).2]
  · exact absurd (eq_of_blocks_empty hb).1 hi
  · rw [(eq_of_blocks_empty hb).2] at hc
    exact absurd hc List.not_mem_nil
  · rw [(eq_of_blocks_empty hb).2]
    exact List.nodup_nil

theorem owning_empty : (empty : Model α).Owning := by
  refine ⟨fun i b hb c hc => ?_, fun i b hb => ?_, fun i j b b' hb hb' c hc _ => ?_⟩
  · rw [(eq_of_blocks_empty hb).2] at hc
    exact absurd hc List.not_mem_nil
  · rw [(eq_of_blocks_empty hb).2]
    exact List.nodup_nil
  · rw [(eq_of_blocks_empty hb).2] at hc
    exact absurd hc List.not_mem_nil

section Reachable

variable [Scalar α]

/-- Registries only ever grow. -/
theorem Change.size_le (h : Change m m') :
    m.vars.size ≤ m'.vars.size ∧ m.constraints.size ≤ m'.constraints.size ∧
      m.blocks.size ≤ m'.blocks.size := by
  cases h with
  | addVariable v => exact ⟨by simp only [Array.size_push, Nat.le_succ], le_rfl, le_rfl⟩
  | addConstraint block b body bounds =>
      exact ⟨le_rfl, by simp only [constraints_modifyBlock, Array.size_push, Nat.le_succ],
        (size_blocks_modifyBlock ..).ge⟩
  | addBlock parent b name =>
      refine ⟨le_rfl, le_rfl, ?_⟩
      simp only [size_blocks_modifyBlock, Array.size_push, Nat.le_succ]
  | switchBlock id active => exact ⟨le_rfl, le_rfl, (size_blocks_modifyBlock ..).ge⟩
  | switchConstraint id active =>
      exact ⟨le_rfl, (size_constraints_modifyConstraint ..).ge, le_rfl⟩
  | setBound id side x => exact ⟨(size_vars_modifyVariable ..).ge, le_rfl, le_rfl⟩
  | setValue id x => exact ⟨(size_vars_modifyVariable ..).ge, le_rfl, le_rfl⟩
  | setFixed id fixed => exact ⟨(size_vars_modifyVariable ..).ge, le_rfl, le_rfl⟩
  | nameVariable id v name => exact ⟨le_rfl, le_rfl, le_rfl⟩
  | nameConstraint id c name => exact ⟨le_rfl, le_rfl, le_rfl⟩

/-- A registry that is small enough now always was. -/
theorem Change.fits (h : Change m m') (hfits : m'.Fits) : m.Fits := by
  rcases h.size_le with ⟨hvars, hconstraints, hblocks⟩
  exact ⟨hvars.trans_lt hfits.vars, hconstraints.trans_lt hfits.constraints,
    hblocks.trans_lt hfits.blocks⟩

/-- Every change keeps the tree of blocks. -/
theorem Treelike.change (h : m.Treelike) (hsize : m.blocks.size < UInt32.size)
    (hchange : Change m m') : m'.Treelike := by
  cases hchange with
  | addBlock parent b name hb =>
      exact h.addBlock hsize (blockAt_eq_ok.mp hb) name
  | addConstraint block b body bounds =>
      have hsame : ({ m with
          constraints := m.constraints.push { body, bounds := bounds.dropInfinite } } :
            Model α).Treelike := ⟨h.root, h.parent, h.child, h.nodup⟩
      exact hsame.modifyBlock (fun _ => rfl) fun _ => rfl
  | switchBlock id active => exact h.modifyBlock (fun _ => rfl) fun _ => rfl
  | addVariable | switchConstraint | setBound | setValue | setFixed | nameVariable
  | nameConstraint => exact ⟨h.root, h.parent, h.child, h.nodup⟩

/-- Every change lists a constraint at most once. -/
theorem Owning.change (h : m.Owning) (hfits : m.Fits) (hchange : Change m m') : m'.Owning := by
  cases hchange with
  | addBlock parent b name => exact h.addBlock rfl fun _ => rfl
  | addConstraint block b body bounds => exact h.addConstraint hfits.constraints _ block
  | switchBlock id active => exact h.modifyBlock fun _ => rfl
  | switchConstraint id active =>
      refine ⟨fun i b hb c hc => ?_, h.nodup, h.unique⟩
      rw [size_constraints_modifyConstraint]
      exact h.lt i b hb c hc
  | addVariable | setBound | setValue | setFixed | nameVariable | nameConstraint =>
      exact ⟨h.lt, h.nodup, h.unique⟩

/-- The blocks of a reachable model form a tree that lists no constraint twice. -/
theorem Reachable.treelike_owning (h : m.Reachable) (hfits : m.Fits) :
    m.Treelike ∧ m.Owning := by
  -- The invariant holds only while the registries fit, so it is carried under that.
  refine h.induction (P := fun m => m.Fits → m.Treelike ∧ m.Owning) ?_ ?_ hfits
  · exact fun _ => ⟨treelike_empty, owning_empty⟩
  · intro a b hchange ih hb
    have ha := hchange.fits hb
    exact ⟨(ih ha).1.change ha.blocks hchange, (ih ha).2.change ha hchange⟩

end Reachable

/-- Opening a block brings its children, if at all, and its constraints. -/
theorem opening_eq (m : Model α) (descend : Bool) (id : BlockId) :
    m.opening descend id = ([], []) ∨ ∃ b, m.blocks[id.index]? = some b ∧
      m.opening descend id = (if descend then b.children else [], b.constraints) := by
  unfold opening
  split
  · rename_i b hb
    exact Or.inr ⟨b, (Option.filter_eq_some_iff.mp hb).1, rfl⟩
  · exact Or.inl rfl

theorem Owning.opening_snd (h : m.Owning) (descend : Bool) (id : BlockId) :
    (m.opening descend id).2.Nodup ∧ ∀ c ∈ (m.opening descend id).2,
      ∃ b, m.blocks[id.index]? = some b ∧ c ∈ b.constraints := by
  rcases m.opening_eq descend id with heq | ⟨b, hb, heq⟩
  · rw [heq]
    exact ⟨List.nodup_nil, fun c hc => absurd hc List.not_mem_nil⟩
  · rw [heq]
    exact ⟨h.nodup _ b hb, fun c hc => ⟨b, hb, hc⟩⟩

theorem Treelike.opening_fst (h : m.Treelike) (descend : Bool) (id : BlockId) :
    (m.opening descend id).1.Nodup ∧ ∀ c ∈ (m.opening descend id).1,
      ∃ b, m.blocks[c.index]? = some b ∧ b.parent = some id := by
  rcases m.opening_eq descend id with heq | ⟨b, hb, heq⟩
  · rw [heq]
    exact ⟨List.nodup_nil, fun c hc => absurd hc List.not_mem_nil⟩
  · rw [heq]
    cases descend with
    | false => exact ⟨List.nodup_nil, fun c hc => absurd hc List.not_mem_nil⟩
    | true =>
        refine ⟨h.nodup _ b hb, fun c hc => ?_⟩
        rcases h.child _ b hb c hc with ⟨b', q, hb', hq, hindex⟩
        exact ⟨b', hb', hq.trans (congrArg some (Id.index_inj hindex))⟩

end Model

namespace Walk

/-- No block is opened twice or waits twice, and the parent of each of them was
    opened. -/
structure Frontier (m : Model α) (opened pending : List BlockId) : Prop where
  nodup : (opened ++ pending).Nodup
  parent : ∀ id ∈ opened ++ pending, ∀ (b : Block) (q : BlockId),
    m.blocks[id.index]? = some b → b.parent = some q → q ∈ opened

variable {m : Model α} {opened pending rest : List BlockId} {id : BlockId}

/-- A walk starts with the root block, which has no parent. -/
theorem Frontier.root (h : m.Treelike) : Frontier m [] [rootBlock] := by
  refine ⟨List.nodup_singleton _, fun id hid b q hb hq => ?_⟩
  rw [List.mem_singleton.mp hid] at hb
  rw [h.root b hb] at hq
  cases hq

/-- Opening the next block keeps the frontier, as its children are all new. -/
theorem Frontier.open_next (h : Frontier m opened (id :: rest)) (htree : m.Treelike)
    (descend : Bool) :
    Frontier m (id :: opened) ((m.opening descend id).1 ++ rest) := by
  rcases htree.opening_fst descend id with ⟨hnodup, hchild⟩
  have hid : id ∉ opened := fun hmem =>
    (List.nodup_append.mp h.nodup).2.2 id hmem id List.mem_cons_self rfl
  -- A child that was known before would have its parent among the opened blocks.
  have hnew (c : BlockId) (hc : c ∈ (m.opening descend id).1) : c ∉ opened ++ id :: rest := by
    intro hold
    rcases hchild c hc with ⟨b, hb, hparent⟩
    exact hid (h.parent c hold b id hb hparent)
  have hperm : List.Perm (id :: opened ++ ((m.opening descend id).1 ++ rest))
      ((m.opening descend id).1 ++ (opened ++ id :: rest)) := by
    refine ((List.perm_append_comm_assoc opened _ rest).cons id).trans ?_
    exact List.perm_middle.symm.trans (List.perm_middle.symm.append_left _)
  refine ⟨hperm.nodup_iff.mpr ?_, fun c hc b q hb hq => ?_⟩
  · refine List.nodup_append.mpr ⟨hnodup, h.nodup, fun c hc d hd heq => ?_⟩
    exact hnew c hc (heq ▸ hd)
  · rcases List.mem_append.mp (hperm.mem_iff.mp hc) with hc | hc
    · rcases hchild c hc with ⟨b', hb', hparent⟩
      rw [hb, Option.some.injEq] at hb'
      rw [← hb', hq, Option.some.injEq] at hparent
      rw [hparent]
      exact List.mem_cons_self
    · exact List.mem_cons_of_mem _ (h.parent c hc b q hb hq)

/-- A walk hands out no constraint twice, and none of a block that was opened
    before. -/
theorem Frontier.nodup_remaining (htree : m.Treelike) (howning : m.Owning) (descend : Bool)
    (openings : Nat) (h : Frontier m opened pending) :
    (remaining m descend openings pending []).Nodup ∧
      ∀ c ∈ remaining m descend openings pending [], ∃ (id : BlockId) (b : Block),
        m.blocks[id.index]? = some b ∧ c ∈ b.constraints ∧ id ∉ opened := by
  -- The induction is on the blocks that may still be opened, the frontier going along.
  induction openings generalizing opened pending with
  | zero => exact ⟨List.nodup_nil, fun c hc => absurd hc List.not_mem_nil⟩
  | succ n ih =>
      cases pending with
      | nil => exact ⟨List.nodup_nil, fun c hc => absurd hc List.not_mem_nil⟩
      | cons id rest =>
          rcases howning.opening_snd descend id with ⟨hnodup, hown⟩
          rcases ih (h.open_next htree descend) with ⟨hrest, hlater⟩
          have hfirst (c : ConstraintId) (hc : c ∈ (m.opening descend id).2.filter m.isActive) :
              ∃ b, m.blocks[id.index]? = some b ∧ c ∈ b.constraints :=
            hown c (List.mem_filter.mp hc).1
          simp only [remaining, List.filter_nil, List.nil_append]
          rw [remaining_eq_filter_append]
          refine ⟨List.nodup_append.mpr ⟨hnodup.filter _, hrest, ?_⟩, fun c hc => ?_⟩
          · -- Two blocks that list one constraint are one block, and this one is closed.
            intro c hc d hd heq
            rcases hfirst c hc with ⟨b, hb, hcb⟩
            rcases hlater d hd with ⟨id', b', hb', hdb', hclosed⟩
            have hindex := howning.unique _ _ b b' hb hb' c hcb (heq ▸ hdb')
            rw [Id.index_inj hindex] at hclosed
            exact hclosed List.mem_cons_self
          · rcases List.mem_append.mp hc with hc | hc
            · rcases hfirst c hc with ⟨b, hb, hcb⟩
              refine ⟨id, b, hb, hcb, fun hmem => ?_⟩
              exact (List.nodup_append.mp h.nodup).2.2 id hmem id List.mem_cons_self rfl
            · rcases hlater c hc with ⟨id', b', hb', hcb', hclosed⟩
              exact ⟨id', b', hb', hcb', fun hmem => hclosed (List.mem_cons_of_mem _ hmem)⟩

end Walk

/-- A walk of a reachable model hands out no constraint twice. -/
theorem Model.nodup_activeConstraints [Scalar α] {m : Model α} (h : m.Reachable) (hfits : m.Fits)
    (descend : Bool) : (m.activeConstraints descend).toList.Nodup := by
  rcases h.treelike_owning hfits with ⟨htree, howning⟩
  exact ((Walk.Frontier.root htree).nodup_remaining htree howning descend _).1

end Presolve
