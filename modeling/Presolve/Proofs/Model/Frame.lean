import Presolve.Proofs.Bounds
import Presolve.Proofs.Model.Change

/-!
# What Edits Leave Alone

A model is read like a store. It has a place for every part of an entry that can change on its
own and one for every name. What is not a place does not exist: two models that read the same
everywhere have the same registries and the same names.

An edit writes to few places. It changes one part of the entry it names, or two parts if it
fixes a variable. If it adds an entry, then all parts of this entry are written, and the block
that lists the entry gets a longer list. All other places read as before, whether or not the
edit is refused. A run is not an edit in this sense, as it may write to the bounds of any
variable.

## Main definitions

* `VariableField`, `ConstraintField`, `BlockField`: The parts of an entry.
* `Slot`: A place in a model.
* `Model.read`: What is found at a place.
* `Command.Touches`: A command may write to a place.

## Theorems

* `Model.registries_of_read`: Places leave nothing out.
* `Model.read_modifyVariable`, `Model.read_pushVariable`, ...: What one write leaves alone.
* `Command.read_apply`: What a command leaves alone.
-/

namespace Presolve

/-- The parts of a variable. -/
inductive VariableField where
  | bound (side : Side)
  | value
  | fixed

/-- The parts of a constraint. Its body and its bounds never change and are one part. -/
inductive ConstraintField where
  | ranged
  | active

/-- The parts of a block. Its name and its parent never change and are one part. -/
inductive BlockField where
  | origin
  | constraints
  | children
  | active

/-- A place in a model: a part of the entry at a position, or the name of an id. -/
inductive Slot where
  | var (i : Nat) (f : VariableField)
  | constraint (i : Nat) (f : ConstraintField)
  | block (i : Nat) (f : BlockField)
  | varName (id : VariableId)
  | constraintName (id : ConstraintId)

/-- What a part of a variable can be. -/
def VariableField.Content (α : Type) : VariableField → Type
  | bound _ => Option α
  | value => Option α
  | fixed => Bool

/-- What a part of a constraint can be. -/
def ConstraintField.Content (α : Type) : ConstraintField → Type
  | ranged => Ranged α
  | active => Bool

/-- What a part of a block can be. -/
def BlockField.Content : BlockField → Type
  | origin => String × Option BlockId
  | constraints => List ConstraintId
  | children => List BlockId
  | active => Bool

/-- What can be found at a place. -/
def Slot.Content (α : Type) : Slot → Type
  | var _ f => f.Content α
  | constraint _ f => f.Content α
  | block _ f => f.Content
  | varName _ => String
  | constraintName _ => String

variable {α : Type}

/-- A part of a variable. -/
def Variable.part (v : Variable α) : (f : VariableField) → f.Content α
  | .bound side => v.bounds.get side
  | .value => v.value
  | .fixed => v.fixed

/-- A part of a constraint. -/
def Constraint.part (c : Constraint α) : (f : ConstraintField) → f.Content α
  | .ranged => c.toRanged
  | .active => c.active

/-- A part of a block. -/
def Block.part (b : Block) : (f : BlockField) → f.Content
  | .origin => (b.name, b.parent)
  | .constraints => b.constraints
  | .children => b.children
  | .active => b.active

/-- A variable with one part replaced. -/
def Variable.put (v : Variable α) : (f : VariableField) → f.Content α → Variable α
  | .bound side, x => { v with bounds := v.bounds.set side x }
  | .value, value => { v with value }
  | .fixed, fixed => { v with fixed }

/-- A constraint with one part replaced. -/
def Constraint.put (c : Constraint α) : (f : ConstraintField) → f.Content α → Constraint α
  | .ranged, toRanged => { c with toRanged }
  | .active, active => { c with active }

/-- A block with one part replaced. -/
def Block.put (b : Block) : (f : BlockField) → f.Content → Block
  | .origin, origin => { b with name := origin.1, parent := origin.2 }
  | .constraints, constraints => { b with constraints }
  | .children, children => { b with children }
  | .active, active => { b with active }

/-- What is found at a place. There is nothing where no entry is, and no name where none was
    given. -/
def Model.read (m : Model α) : (s : Slot) → Option (s.Content α)
  | .var i f => (m.vars[i]?).map (·.part f)
  | .constraint i f => (m.constraints[i]?).map (·.part f)
  | .block i f => (m.blocks[i]?).map (·.part f)
  | .varName id => m.varNames.name? id
  | .constraintName id => m.constraintNames.name? id

theorem Variable.part_put_of_ne (v : Variable α) {f f' : VariableField} {x : f.Content α}
    (h : f' ≠ f) : (v.put f x).part f' = v.part f' := by
  cases f with
  | bound side =>
      cases f' with
      | bound side' =>
          -- The other bound is the one on the other side.
          have hflip : side' = side.flip := side.eq_flip_of_ne fun hside => h (by rw [hside])
          rw [hflip]
          exact Bounds.get_set_flip v.bounds side x
      | value => rfl
      | fixed => rfl
  | value => cases f' <;> first | rfl | exact absurd rfl h
  | fixed => cases f' <;> first | rfl | exact absurd rfl h

theorem Constraint.part_put_of_ne (c : Constraint α) {f f' : ConstraintField} {x : f.Content α}
    (h : f' ≠ f) : (c.put f x).part f' = c.part f' := by
  cases f <;> cases f' <;> first | rfl | exact absurd rfl h

theorem Block.part_put_of_ne (b : Block) {f f' : BlockField} {x : f.Content} (h : f' ≠ f) :
    (b.put f x).part f' = b.part f' := by
  cases f <;> cases f' <;> first | rfl | exact absurd rfl h

theorem Variable.eq_of_part {v w : Variable α} (h : ∀ f, v.part f = w.part f) : v = w := by
  have hlower : v.bounds.lower = w.bounds.lower := h (.bound .lower)
  have hupper : v.bounds.upper = w.bounds.upper := h (.bound .upper)
  have hvalue : v.value = w.value := h .value
  have hfixed : v.fixed = w.fixed := h .fixed
  rcases v with ⟨⟨l, u⟩, x, f⟩
  rcases w with ⟨⟨l', u'⟩, x', f'⟩
  simp only at hlower hupper hvalue hfixed
  rw [hlower, hupper, hvalue, hfixed]

theorem Constraint.eq_of_part {c d : Constraint α} (h : ∀ f, c.part f = d.part f) : c = d := by
  have hranged : c.toRanged = d.toRanged := h .ranged
  have hactive : c.active = d.active := h .active
  rcases c with ⟨r, a⟩
  rcases d with ⟨r', a'⟩
  simp only at hranged hactive
  rw [hranged, hactive]

theorem Block.eq_of_part {b d : Block} (h : ∀ f, b.part f = d.part f) : b = d := by
  have horigin : (b.name, b.parent) = (d.name, d.parent) := h .origin
  have hconstraints : b.constraints = d.constraints := h .constraints
  have hchildren : b.children = d.children := h .children
  have hactive : b.active = d.active := h .active
  rw [Prod.mk.injEq] at horigin
  rcases b with ⟨name, parent, constraints, children, active⟩
  rcases d with ⟨name', parent', constraints', children', active'⟩
  simp only at horigin hconstraints hchildren hactive
  rw [horigin.1, horigin.2, hconstraints, hchildren, hactive]

/-- Two arrays are equal if the parts of all entries are. -/
theorem eq_of_parts {β F : Type} {C : F → Type} [Nonempty F] {part : β → (f : F) → C f}
    (hpart : ∀ {x y : β}, (∀ f, part x f = part y f) → x = y) {xs ys : Array β}
    (h : ∀ (i : Nat) (f : F), (xs[i]?).map (part · f) = (ys[i]?).map (part · f)) : xs = ys := by
  refine Array.ext_getElem? fun i => ?_
  -- One part of an entry is enough to see that it is there.
  rcases hx : xs[i]? with _ | x <;> rcases hy : ys[i]? with _ | y
  · rfl
  · have hi := h i (Classical.arbitrary F)
    simp [hx, hy] at hi
  · have hi := h i (Classical.arbitrary F)
    simp [hx, hy] at hi
  · refine congrArg some (hpart fun f => ?_)
    have hi := h i f
    rwa [hx, hy, Option.map_some, Option.map_some, Option.some.injEq] at hi

namespace Model

variable {m m' : Model α} {s : Slot}

/-- Two models that read the same everywhere hold the same entries and give the same names. -/
theorem registries_of_read (h : ∀ s, m'.read s = m.read s) :
    m'.vars = m.vars ∧ m'.constraints = m.constraints ∧ m'.blocks = m.blocks ∧
      m'.varNames.name? = m.varNames.name? ∧
      m'.constraintNames.name? = m.constraintNames.name? := by
  refine ⟨?_, ?_, ?_, ?_, ?_⟩
  · have : Nonempty VariableField := ⟨.value⟩
    exact eq_of_parts Variable.eq_of_part fun i f => h (.var i f)
  · have : Nonempty ConstraintField := ⟨.active⟩
    exact eq_of_parts Constraint.eq_of_part fun i f => h (.constraint i f)
  · have : Nonempty BlockField := ⟨.active⟩
    exact eq_of_parts Block.eq_of_part fun i f => h (.block i f)
  · exact funext fun id => h (.varName id)
  · exact funext fun id => h (.constraintName id)

theorem map_getElem?_modify {β γ : Type} {xs : Array β} {k i : Nat} {g : β → β} {part : β → γ}
    (h : k = i → ∀ x, part (g x) = part x) :
    ((xs.modify k g)[i]?).map part = (xs[i]?).map part := by
  rw [Array.getElem?_modify]
  by_cases hi : k = i
  · rw [if_pos hi, Option.map_map]
    exact congrArg (Option.map · _) (funext (h hi))
  · rw [if_neg hi]

theorem map_getElem?_push {β γ : Type} {xs : Array β} {i : Nat} {x : β} (part : β → γ)
    (h : i ≠ xs.size) : ((xs.push x)[i]?).map part = (xs[i]?).map part := by
  rw [Array.getElem?_push, if_neg h]

/-- A write to one part of a variable leaves all other places alone. -/
theorem read_modifyVariable {id : VariableId} {g : Variable α → Variable α} {f : VariableField}
    (hg : ∀ v, ∃ x, g v = v.put f x) (hs : s ≠ .var id.index f) :
    (m.modifyVariable id g).read s = m.read s := by
  cases s with
  | var i f' =>
      refine map_getElem?_modify fun hi v => ?_
      rcases hg v with ⟨x, hx⟩
      rw [hx, v.part_put_of_ne fun hf => hs (by rw [hi, hf])]
  | constraint i f' => rfl
  | block i f' => rfl
  | varName id' => rfl
  | constraintName id' => rfl

/-- A write to one part of a constraint leaves all other places alone. -/
theorem read_modifyConstraint {id : ConstraintId} {g : Constraint α → Constraint α}
    {f : ConstraintField} (hg : ∀ c, ∃ x, g c = c.put f x) (hs : s ≠ .constraint id.index f) :
    (m.modifyConstraint id g).read s = m.read s := by
  cases s with
  | constraint i f' =>
      refine map_getElem?_modify fun hi c => ?_
      rcases hg c with ⟨x, hx⟩
      rw [hx, c.part_put_of_ne fun hf => hs (by rw [hi, hf])]
  | var i f' => rfl
  | block i f' => rfl
  | varName id' => rfl
  | constraintName id' => rfl

/-- A write to one part of a block leaves all other places alone. -/
theorem read_modifyBlock {id : BlockId} {g : Block → Block} {f : BlockField}
    (hg : ∀ b, ∃ x, g b = b.put f x) (hs : s ≠ .block id.index f) :
    (m.modifyBlock id g).read s = m.read s := by
  cases s with
  | block i f' =>
      refine map_getElem?_modify fun hi b => ?_
      rcases hg b with ⟨x, hx⟩
      rw [hx, b.part_put_of_ne fun hf => hs (by rw [hi, hf])]
  | var i f' => rfl
  | constraint i f' => rfl
  | varName id' => rfl
  | constraintName id' => rfl

/-- A new variable leaves all places alone but its own. -/
theorem read_pushVariable {v : Variable α} (hs : ∀ f, s ≠ .var m.vars.size f) :
    Model.read { m with vars := m.vars.push v } s = m.read s := by
  cases s with
  | var i f => exact map_getElem?_push _ fun hi => hs f (by rw [hi])
  | constraint i f => rfl
  | block i f => rfl
  | varName id => rfl
  | constraintName id => rfl

/-- A new constraint leaves all places alone but its own. -/
theorem read_pushConstraint {c : Constraint α} (hs : ∀ f, s ≠ .constraint m.constraints.size f) :
    Model.read { m with constraints := m.constraints.push c } s = m.read s := by
  cases s with
  | constraint i f => exact map_getElem?_push _ fun hi => hs f (by rw [hi])
  | var i f => rfl
  | block i f => rfl
  | varName id => rfl
  | constraintName id => rfl

/-- A new block leaves all places alone but its own. -/
theorem read_pushBlock {b : Block} (hs : ∀ f, s ≠ .block m.blocks.size f) :
    Model.read { m with blocks := m.blocks.push b } s = m.read s := by
  cases s with
  | block i f => exact map_getElem?_push _ fun hi => hs f (by rw [hi])
  | var i f => rfl
  | constraint i f => rfl
  | varName id => rfl
  | constraintName id => rfl

theorem name?_assign_of_ne {r : Registry} (t : NameTable r) {id id' : Id r} (name : String)
    (h : id' ≠ id) : (t.assign id name).name? id' = t.name? id' := by
  rw [NameTable.name?, NameTable.assign, Std.TreeMap.getElem?_insert, if_neg, NameTable.name?]
  intro hcompare
  exact h (Std.LawfulEqOrd.eq_of_compare hcompare).symm

/-- A name that is given to a variable leaves all other places alone. -/
theorem read_nameVariable {id : VariableId} {name : String} (hs : s ≠ .varName id) :
    Model.read { m with varNames := m.varNames.assign id name } s = m.read s := by
  cases s with
  | varName id' => exact name?_assign_of_ne _ name fun hid => hs (by rw [hid])
  | var i f => rfl
  | constraint i f => rfl
  | block i f => rfl
  | constraintName id' => rfl

/-- A name that is given to a constraint leaves all other places alone. -/
theorem read_nameConstraint {id : ConstraintId} {name : String} (hs : s ≠ .constraintName id) :
    Model.read { m with constraintNames := m.constraintNames.assign id name } s = m.read s := by
  cases s with
  | constraintName id' => exact name?_assign_of_ne _ name fun hid => hs (by rw [hid])
  | var i f => rfl
  | constraint i f => rfl
  | block i f => rfl
  | varName id' => rfl

end Model

variable [Scalar α]

/-- A command may write to a place. For an edit these are the part of the entry that it is
    about and, if it adds an entry, the parts of the new one and the list that it is put on.
    Nothing is said of runs. -/
def Command.Touches (m : Model α) (s : Slot) : Command α → Prop
  | addVariable _ => ∃ f, s = .var m.vars.size f
  | addConstraintTo block _ _ =>
    (∃ f, s = .constraint m.constraints.size f) ∨ s = .block block.index .constraints
  | addBlock parent _ => (∃ f, s = .block m.blocks.size f) ∨ s = .block parent.index .children
  | setBlockActive id _ => s = .block id.index .active
  | setBound id side _ => s = .var id.index (.bound side)
  | setValue id _ => s = .var id.index .value
  | fix id _ => s = .var id.index .value ∨ s = .var id.index .fixed
  | unfix id => s = .var id.index .fixed
  | setConstraintActive id _ => s = .constraint id.index .active
  | nameVariable id _ => s = .varName id
  | nameConstraint id _ => s = .constraintName id
  | run _ => True

variable {m : Model α} {s : Slot}

omit [Scalar α] in
theorem Model.read_orKeep {β : Type} {result : Except (ModelError α) β} {changed : β → Model α}
    (h : ∀ x, result = .ok x → (changed x).read s = m.read s) :
    (m.orKeep result changed).read s = m.read s := by
  cases result with
  | ok x => exact h x rfl
  | error e => rfl

/-- A command leaves alone what it does not touch. -/
theorem Command.read_apply {c : Command α} (hs : ¬ c.Touches m s) :
    (c.apply m).read s = m.read s := by
  cases c with
  | addVariable v =>
      refine Model.read_orKeep fun x h => ?_
      rcases Model.addVariable_eq_ok h with ⟨-, -, -, -, rfl⟩
      exact Model.read_pushVariable fun f hf => hs ⟨f, hf⟩
  | addConstraintTo block body bounds =>
      refine Model.read_orKeep fun x h => ?_
      rcases Model.addConstraintTo_eq_ok.mp h with ⟨-, -, -, -, rfl⟩
      -- The constraint is put into the registry and then on the list of its block.
      refine (Model.read_modifyBlock (fun b => ⟨_, rfl⟩) fun hb => hs (Or.inr hb)).trans ?_
      exact Model.read_pushConstraint fun f hf => hs (Or.inl ⟨f, hf⟩)
  | addBlock parent name =>
      refine Model.read_orKeep fun x h => ?_
      rcases Model.addBlock_eq_ok h with ⟨p, -, -, rfl⟩
      refine (Model.read_modifyBlock (fun b => ⟨_, rfl⟩) fun hb => hs (Or.inr hb)).trans ?_
      exact Model.read_pushBlock fun f hf => hs (Or.inl ⟨f, hf⟩)
  | setBlockActive id active =>
      refine Model.read_orKeep fun m' h => ?_
      rcases exists_of_bind_ok h with ⟨b, -, h⟩
      cases h
      exact Model.read_modifyBlock (fun b => ⟨_, rfl⟩) hs
  | setBound id side x =>
      refine Model.read_orKeep fun m' h => ?_
      rcases exists_of_bind_ok h with ⟨v, -, h⟩
      split at h
      · cases h
      · cases h
        exact Model.read_modifyVariable (fun v => ⟨_, rfl⟩) hs
  | setValue id x =>
      refine Model.read_orKeep fun m' h => ?_
      rcases Model.setValue_eq_ok h with ⟨-, -, rfl⟩
      exact Model.read_modifyVariable (fun v => ⟨_, rfl⟩) hs
  | fix id x =>
      refine Model.read_orKeep fun m' h => ?_
      rcases exists_of_bind_ok h with ⟨valued, hvalued, h⟩
      cases h
      rcases Model.setValue_eq_ok hvalued with ⟨-, -, rfl⟩
      -- The value is written first and the flag after it.
      refine (Model.read_modifyVariable (fun v => ⟨_, rfl⟩) fun hf => hs (Or.inr hf)).trans ?_
      exact Model.read_modifyVariable (fun v => ⟨_, rfl⟩) fun hf => hs (Or.inl hf)
  | unfix id =>
      refine Model.read_orKeep fun m' h => ?_
      rcases exists_of_bind_ok h with ⟨v, -, h⟩
      cases h
      exact Model.read_modifyVariable (fun v => ⟨_, rfl⟩) hs
  | setConstraintActive id active =>
      refine Model.read_orKeep fun m' h => ?_
      rcases exists_of_bind_ok h with ⟨c, -, h⟩
      cases h
      exact Model.read_modifyConstraint (fun c => ⟨_, rfl⟩) hs
  | nameVariable id name =>
      refine Model.read_orKeep fun m' h => ?_
      rcases exists_of_bind_ok h with ⟨v, -, h⟩
      cases h
      exact Model.read_nameVariable hs
  | nameConstraint id name =>
      refine Model.read_orKeep fun m' h => ?_
      rcases exists_of_bind_ok h with ⟨c, -, h⟩
      cases h
      exact Model.read_nameConstraint hs
  | run p => exact absurd trivial hs

end Presolve
