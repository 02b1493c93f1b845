import Presolve.Proofs.Fold.Tightening
import Presolve.Proofs.Model.Structure

/-!
# Ids as Addresses

An id that a model hands out for a new entry was not in use, and it stays the address of
that entry whatever is done with the model later. Nothing is ever taken out of a registry
or moved within one, so this holds of all commands, also of those that are refused and of
runs that fail.

A constraint and a block have parts that no operation changes, and those are found under
the id ever after. A variable has no such part. What is found under its id is what came of
it by the commands that name it, one after the other, and by what runs have tightened.

## Main definitions

* `Command.Turns`, `Variable.Turns`: What commands can make of a variable.
* `Model.VariableStays`, `Model.ConstraintStays`, `Model.BlockStays`: What is found under
  an id ever after.
* `Model.Addressing`: Ids handed out next are new and stay addresses.

## Theorems

* `Model.variableAt_apply`: Every command leaves a variable under its id.
* `Model.Sound.addressing`: Ids are addresses.
* `Model.Reachable.structured_addressing`: The structure of reachable models.
-/

namespace Presolve

variable {α : Type} [Scalar α]

/-- What a command can make of the variable with an id. A run may tighten it, an edit that
    names it changes one part of it if it is not refused, and nothing else touches it. -/
def Command.Turns (id : VariableId) (v w : Variable α) : Command α → Prop
  | setBound id' side x =>
    w = v ∨ id' = id ∧ w = { v with bounds := v.bounds.set side (x.filter (!side.isUnbounding ·)) }
  | setValue id' x => w = v ∨ id' = id ∧ w = { v with value := x }
  | fix id' x => w = v ∨ id' = id ∧ w = { v with value := some x, fixed := true }
  | unfix id' => w = v ∨ id' = id ∧ w = { v with fixed := false }
  | run _ => v.Tightened w
  | _ => w = v

/-- What commands can make of the variable with an id, one after the other. -/
def Variable.Turns (id : VariableId) : List (Command α) → Variable α → Variable α → Prop
  | [], v, w => w = v
  | c :: rest, v, w => ∃ u, c.Turns id v u ∧ Variable.Turns id rest u w

namespace Model

variable {m : Model α} {id : VariableId} {v : Variable α}

omit [Scalar α] in
/-- A change of some variable is one of this variable or leaves it alone. -/
theorem exists_variableAt_modifyVariable (hv : m.variableAt id = .ok v) (id' : VariableId)
    (f : Variable α → Variable α) :
    ∃ w, (m.modifyVariable id' f).variableAt id = .ok w ∧ (w = v ∨ id' = id ∧ w = f v) := by
  by_cases hid : id' = id
  · subst hid
    exact ⟨f v, variableAt_modifyVariable_self f hv, Or.inr ⟨rfl, rfl⟩⟩
  · refine ⟨v, ?_, Or.inl rfl⟩
    rw [variableAt, vars_modifyVariable, if_neg fun hindex => hid (Id.index_inj hindex),
      variableAt_eq_ok.mp hv]

omit [Scalar α] in
/-- After an operation that was refused an entry is as it was. -/
theorem exists_variableAt_orKeep {β : Type} {result : Except (ModelError α) β}
    {changed : β → Model α} {P : Variable α → Prop} (hv : m.variableAt id = .ok v) (hsame : P v)
    (h : ∀ x, result = .ok x → ∃ w, (changed x).variableAt id = .ok w ∧ P w) :
    ∃ w, (m.orKeep result changed).variableAt id = .ok w ∧ P w := by
  cases result with
  | ok x => exact h x rfl
  | error e => exact ⟨v, hv, hsame⟩

variable [OrderedScalar α]

/-- Every command leaves a variable under its id. -/
theorem variableAt_apply (hm : m.Sound) (hv : m.variableAt id = .ok v) (c : Command α) :
    ∃ w, (c.apply m).variableAt id = .ok w ∧ c.Turns id v w := by
  cases c with
  | addVariable w =>
      refine exists_variableAt_orKeep hv rfl fun x hx => ⟨v, ?_, rfl⟩
      rcases addVariable_eq_ok hx with ⟨-, -, -, -, rfl⟩
      exact variableAt_eq_ok.mpr (getElem?_push_of_eq_some _ (variableAt_eq_ok.mp hv))
  | addConstraintTo block body bounds =>
      refine exists_variableAt_orKeep hv rfl fun x hx => ⟨v, ?_, rfl⟩
      rcases addConstraintTo_eq_ok.mp hx with ⟨-, -, -, -, rfl⟩
      exact hv
  | addBlock parent name =>
      refine exists_variableAt_orKeep hv rfl fun x hx => ⟨v, ?_, rfl⟩
      rcases addBlock_eq_ok hx with ⟨b, -, -, rfl⟩
      exact hv
  | setBlockActive id' active | setConstraintActive id' active | nameVariable id' name
  | nameConstraint id' name =>
      refine exists_variableAt_orKeep hv rfl fun x hx => ⟨v, ?_, rfl⟩
      rcases exists_of_bind_ok hx with ⟨_, -, hx⟩
      cases hx
      exact hv
  | setBound id' side bound =>
      refine exists_variableAt_orKeep hv (Or.inl rfl) fun x hx => ?_
      rcases exists_of_bind_ok hx with ⟨w, -, hx⟩
      split at hx
      · cases hx
      · cases hx
        exact exists_variableAt_modifyVariable hv id' _
  | setValue id' value =>
      refine exists_variableAt_orKeep hv (Or.inl rfl) fun x hx => ?_
      rcases setValue_eq_ok hx with ⟨-, -, rfl⟩
      exact exists_variableAt_modifyVariable hv id' _
  | fix id' value =>
      refine exists_variableAt_orKeep hv (Or.inl rfl) fun x hx => ?_
      rcases exists_of_bind_ok hx with ⟨valued, hvalued, hx⟩
      rcases setValue_eq_ok hvalued with ⟨-, -, rfl⟩
      cases hx
      -- The two changes are of one variable, so they are one change.
      rw [modifyVariable_modifyVariable]
      exact exists_variableAt_modifyVariable hv id' _
  | unfix id' =>
      refine exists_variableAt_orKeep hv (Or.inl rfl) fun x hx => ?_
      rcases exists_of_bind_ok hx with ⟨w, -, hx⟩
      cases hx
      exact exists_variableAt_modifyVariable hv id' _
  | run p =>
      rcases (p.tightened_model_run hm).vars _ v (variableAt_eq_ok.mp hv) with ⟨w, hw, htightened⟩
      exact ⟨w, variableAt_eq_ok.mpr hw, htightened⟩

omit [OrderedScalar α] in
/-- What was put in stays at its position, whatever is done later. -/
theorem keeps_after (m : Model α) (commands : List (Command α)) : m.Keeps (m.after commands) :=
  (m.changes_after commands).keeps

/-- The variable can be found under the id ever after, and it is what the commands have
    made of it that name it. -/
def VariableStays (m : Model α) (id : VariableId) (v : Variable α) : Prop :=
  ∀ commands : List (Command α), ∃ w, (m.after commands).variableAt id = .ok w ∧
    Variable.Turns id commands v w

theorem variableStays (hm : m.Sound) (hv : m.variableAt id = .ok v) : m.VariableStays id v := by
  intro commands
  induction commands generalizing m v with
  | nil => exact ⟨v, hv, rfl⟩
  | cons c rest ih =>
      rcases variableAt_apply hm hv c with ⟨u, hu, hturns⟩
      rcases ih (hm.changes (c.changes m)) hu with ⟨w, hw, hrest⟩
      exact ⟨w, hw, u, hturns, hrest⟩

/-- The body and the bounds of a constraint can be found under the id ever after. -/
def ConstraintStays (m : Model α) (id : ConstraintId) (r : Ranged α) : Prop :=
  ∀ commands : List (Command α), ∃ c, (m.after commands).constraintAt id = .ok c ∧ c.toRanged = r

/-- The name and the parent of a block can be found under the id ever after. -/
def BlockStays (m : Model α) (id : BlockId) (name : String) (parent : BlockId) : Prop :=
  ∀ commands : List (Command α), ∃ b, (m.after commands).blockAt id = .ok b ∧ b.name = name ∧
    b.parent = some parent

omit [OrderedScalar α] in
theorem constraintStays {id : ConstraintId} {c : Constraint α} (hc : m.constraintAt id = .ok c) :
    m.ConstraintStays id c.toRanged := by
  intro commands
  rcases (m.keeps_after commands).constraints _ c (constraintAt_eq_ok.mp hc) with ⟨c', hc', hsame⟩
  exact ⟨c', constraintAt_eq_ok.mpr hc', hsame⟩

omit [OrderedScalar α] in
theorem blockStays {id parent : BlockId} {b : Block} (hb : m.blockAt id = .ok b)
    (hparent : b.parent = some parent) : m.BlockStays id b.name parent := by
  intro commands
  rcases (m.keeps_after commands).blocks _ b (blockAt_eq_ok.mp hb) with ⟨b', hb', hgrows⟩
  exact ⟨b', blockAt_eq_ok.mpr hb', hgrows.name, hgrows.parent.trans hparent⟩

/-- The ids that a model hands out next are not in use, and what is put in under them
    stays there. -/
structure Addressing (m : Model α) : Prop where
  vars : ∀ v id m', m.addVariable v = .ok (id, m') →
    (∀ w, m.variableAt id ≠ .ok w) ∧
      m'.VariableStays id { v with bounds := v.bounds.dropInfinite }
  constraints : ∀ block r id m', m.addConstraintTo block r = .ok (id, m') →
    (∀ c, m.constraintAt id ≠ .ok c) ∧ m'.ConstraintStays id r
  blocks : ∀ parent name id m', (m.addBlock parent name).result = .ok (id, m') →
    (∀ b, m.blockAt id ≠ .ok b) ∧ m'.BlockStays id name parent

/-- Ids are addresses as long as the registries have not outgrown them. -/
theorem Sound.addressing (hm : m.Sound) (hfits : m.Fits) : m.Addressing where
  vars v id m' h := by
    have hsound := hm.change (addVariable_change h)
    rcases addVariable_eq_ok h with ⟨-, -, -, -, hx⟩
    rcases Prod.mk.inj hx with ⟨rfl, rfl⟩
    have hindex : (Id.ofIndex m.vars.size : VariableId).index = m.vars.size :=
      Id.index_ofIndex hfits.vars
    refine ⟨fun w hw => ?_, variableStays hsound (variableAt_eq_ok.mpr ?_)⟩
    · have := (Array.getElem?_eq_some_iff.mp (variableAt_eq_ok.mp hw)).1
      omega
    · rw [hindex]
      exact Array.getElem?_push_size
  constraints block r id m' h := by
    rcases addConstraintTo_eq_ok.mp h with ⟨-, -, -, -, hx⟩
    rcases Prod.mk.inj hx with ⟨rfl, rfl⟩
    have hindex : (Id.ofIndex m.constraints.size : ConstraintId).index = m.constraints.size :=
      Id.index_ofIndex hfits.constraints
    refine ⟨fun c hc => ?_, constraintStays (c := { r with }) (constraintAt_eq_ok.mpr ?_)⟩
    · have := (Array.getElem?_eq_some_iff.mp (constraintAt_eq_ok.mp hc)).1
      omega
    · rw [hindex]
      exact Array.getElem?_push_size
  blocks parent name id m' h := by
    rcases addBlock_eq_ok h with ⟨p, hp, -, hx⟩
    rcases Prod.mk.inj hx with ⟨rfl, rfl⟩
    have hindex : (Id.ofIndex m.blocks.size : BlockId).index = m.blocks.size :=
      Id.index_ofIndex hfits.blocks
    have hlt : parent.index < m.blocks.size :=
      (Array.getElem?_eq_some_iff.mp (blockAt_eq_ok.mp hp)).1
    refine ⟨fun b hb => ?_, blockStays (b := { name, parent := some parent })
      (blockAt_eq_ok.mpr ?_) rfl⟩
    · have := (Array.getElem?_eq_some_iff.mp (blockAt_eq_ok.mp hb)).1
      omega
    · rw [blocks_modifyBlock, hindex, if_neg hlt.ne]
      exact Array.getElem?_push_size

/-- The registries of a reachable model fit together, and the ids it hands out next are
    new and stay addresses of their entries. -/
theorem Reachable.structured_addressing (h : m.Reachable) (hfits : m.Fits) :
    m.Structured ∧ m.Addressing :=
  ⟨(h.coherent hfits).structured h.sound, h.sound.addressing hfits⟩

/-- Two blocks below the root and one below the first of them, with a constraint each. The
    third block has the name of the first one, which is no sibling of it. A second block of
    that name below the root is refused, and so is a constraint on a variable that does not
    exist. -/
theorem structured_addressing_nested :
    ∃ m : Model Float,
      m = (Model.empty : Model Float).after [.addVariable {}, .addBlock rootBlock "a",
        .addBlock rootBlock "b", .addBlock ⟨1⟩ "a", .addBlock rootBlock "a",
        .addConstraintTo ⟨3⟩ (.term ⟨0⟩ 2) ⟨none, some 6⟩,
        .addConstraintTo ⟨1⟩ (.term ⟨0⟩ 1) ⟨some 1, none⟩,
        .addConstraintTo ⟨1⟩ (.term ⟨1⟩ 1) ⟨some 1, none⟩,
        .addConstraintTo ⟨3⟩ (.term ⟨0⟩ 3) ⟨some 0, none⟩, .nameVariable ⟨0⟩ "x",
        .nameVariable ⟨1⟩ "y", .run .standard] ∧
      m.Fits ∧ m.Structured ∧ m.Addressing ∧
      m.blocks.toList.map (fun b => (b.name, b.children, b.constraints)) =
        [("", [⟨1⟩, ⟨2⟩], []), ("a", [⟨3⟩], [⟨1⟩]), ("b", [], []), ("a", [], [⟨0⟩, ⟨2⟩])] ∧
      (m.addBlock ⟨2⟩ "a").result.isOk = true := by
  set m := (Model.empty : Model Float).after [.addVariable {}, .addBlock rootBlock "a",
    .addBlock rootBlock "b", .addBlock ⟨1⟩ "a", .addBlock rootBlock "a",
    .addConstraintTo ⟨3⟩ (.term ⟨0⟩ 2) ⟨none, some 6⟩,
    .addConstraintTo ⟨1⟩ (.term ⟨0⟩ 1) ⟨some 1, none⟩,
    .addConstraintTo ⟨1⟩ (.term ⟨1⟩ 1) ⟨some 1, none⟩,
    .addConstraintTo ⟨3⟩ (.term ⟨0⟩ 3) ⟨some 0, none⟩, .nameVariable ⟨0⟩ "x",
    .nameVariable ⟨1⟩ "y", .run .standard] with hm
  have hfits : m.Fits := ⟨by decide +kernel, by decide +kernel, by decide +kernel⟩
  rcases Reachable.structured_addressing ⟨_, hm.symm⟩ hfits with ⟨hstructured, haddressing⟩
  exact ⟨m, rfl, hfits, hstructured, haddressing, by decide +kernel, by decide +kernel⟩

end Model

end Presolve
