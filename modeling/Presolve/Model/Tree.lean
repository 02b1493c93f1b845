import Presolve.Model.Basic

/-!
# The Block Tree

Where a block stands in the tree, and which constraints a traversal of the tree
meets.

The path of a block joins the names of the blocks from below the root down to
it with dots, so the root itself has the empty path. It is found by following
parents. A parent is older than its children, so the way up is no longer than
the number of blocks; `Lineage` says what the way up is without counting.

A traversal lists the active constraints of a block and then, if it is to
descend, what the traversals of its children list. A block that is switched off
hides everything below it. The depth of the tree, too, is less than the number
of blocks.

## Main definitions

* `Model.Lineage`: The names of the blocks from the root down to a block.
* `Model.Below`: A block is below another one, or is that block.
* `Model.namesTo`: The same names, found by following parents.
* `Model.blockPath`: The names, joined with dots.
* `Model.traverse`: The active constraints at and below a block.
-/

namespace Presolve

namespace Model

variable {α : Type}

/-- The names met on the way from the root down to a block, the name of the root
    left out. -/
inductive Lineage (m : Model α) : BlockId → List String → Prop
  | root : Lineage m rootBlock []
  | child {id parent : BlockId} {b : Block} {names : List String} :
      m.blockAt id = .ok b → b.parent = some parent → Lineage m parent names →
      Lineage m id (names ++ [b.name])

/-- The block `id` is `top` or is reached from it through children. -/
inductive Below (m : Model α) (top : BlockId) : BlockId → Prop
  | refl : Below m top top
  | child {id parent : BlockId} {b : Block} :
      Below m top parent → m.blockAt id = .ok b → b.parent = some parent → Below m top id

/-- The names on the way down to a block, following at most `steps` parents. -/
def namesTo (m : Model α) : (steps : Nat) → BlockId → Except (ModelError α) (List String)
  | 0, _ => .ok []
  | steps + 1, id =>
    if id = rootBlock then
      .ok []
    else do
      let b ← m.blockAt id
      let names ← m.namesTo steps (b.parent.getD rootBlock)
      return names ++ [b.name]

/-- The names of the blocks from below the root down to a block, joined with
    dots. -/
def blockPath (m : Model α) (id : BlockId) : Except (ModelError α) String := do
  let names ← m.namesTo (m.blocks.size + 1) id
  return ".".intercalate names

/-- The active constraints of a block and, if `descend`, of everything below it
    down to `depth` levels. -/
def traverse (m : Model α) (descend : Bool) : (depth : Nat) → BlockId → List ConstraintId
  | 0, _ => []
  | depth + 1, id =>
    match m.blocks[id.index]? with
    | none => []
    | some b =>
      if b.active then
        b.constraints.filter m.isActive ++
          if descend then b.children.flatMap (m.traverse descend depth) else []
      else []

end Model

end Presolve
