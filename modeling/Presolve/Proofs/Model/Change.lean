import Mathlib.Logic.Relation
import Presolve.History
import Presolve.Proofs.Model.Entries
import Presolve.Proofs.Scalar.Order

/-!
# Changes of a Model

There are many operations on a model and few ways in which they change it.
`Change` lists these ways, each with what the operation has checked before, and
every operation that is not refused comes to one of them or to two in a row. A
run comes to a list of them, whatever its reduction answers, because it edits
its model only through operations.

A property of the empty model that every change keeps is a property of every
reachable model, so an invariant is proved by going through the changes once,
and never through the operations or the steps of a run.

## Main definitions

* `Model.Change`: One change of a model, with the checks made before it.
* `Model.Changes`: Some changes one after the other.
* `Model.withConstraint`: The model with one more constraint.

## Theorems

* `Model.addVariable_eq_ok`, `Model.addConstraintTo_eq_ok`, `Model.addBlock_eq_ok`:
  When an entry can be added, and what comes of it.
* `Command.changes`: Every command comes to changes.
* `Pass.changes_run`: A run comes to changes, whether or not it succeeds.
* `Model.Reachable.induction`: An invariant of changes holds of reachable models.
-/

namespace Presolve

open Scalar

variable {α : Type} [Scalar α]

/-- A computation in two steps succeeds if both of them do. -/
theorem exists_of_bind_ok {ε β γ : Type} {x : Except ε β} {f : β → Except ε γ} {c : γ}
    (h : x >>= f = .ok c) : ∃ b, x = .ok b ∧ f b = .ok c := by
  cases x with
  | error e => cases h
  | ok b => exact ⟨b, rfl, h⟩

theorem exists_ok_of_isOk {ε β : Type} {x : Except ε β} (h : x.isOk = true) : ∃ b, x = .ok b := by
  cases x with
  | error e => cases h
  | ok b => exact ⟨b, rfl⟩

namespace Model

/-- One change of a model, with what is checked before it is made. -/
inductive Change (m : Model α) : Model α → Prop
  | addVariable (v : Variable α) :
      v.bounds.dropInfinite.hasNaN = false → v.bounds.dropInfinite.crossed = false →
      (∀ x ∈ v.value, IsNumber x) → (v.fixed = true → v.value.isSome = true) →
      Change m { m with vars := m.vars.push { v with bounds := v.bounds.dropInfinite } }
  | addConstraint (block : BlockId) (b : Block) (body : Poly α) (bounds : Bounds α) :
      m.blockAt block = .ok b →
      bounds.dropInfinite.hasNaN = false → bounds.dropInfinite.crossed = false →
      (∀ v ∈ body.occurrences, v.index < m.vars.size) →
      Change m
        ({ m with
            constraints := m.constraints.push { body, bounds := bounds.dropInfinite } }.modifyBlock
          block fun b => { b with constraints := b.constraints ++ [Id.ofIndex m.constraints.size] })
  | addBlock (parent : BlockId) (b : Block) (name : String) :
      m.blockAt parent = .ok b → m.hasChildNamed b name = false →
      Change m
        ({ m with blocks := m.blocks.push { name, parent := some parent } }.modifyBlock parent
          fun b => { b with children := b.children ++ [Id.ofIndex m.blocks.size] })
  | switchBlock (id : BlockId) (active : Bool) :
      Change m (m.modifyBlock id fun b => { b with active })
  | switchConstraint (id : ConstraintId) (active : Bool) :
      Change m (m.modifyConstraint id fun c => { c with active })
  | setBound (id : VariableId) (side : Side) (x : Option α) :
      (∀ a ∈ x, IsNumber a) → (∀ a ∈ x, side.isUnbounding a = false) →
      Change m (m.modifyVariable id fun v => { v with bounds := v.bounds.set side x })
  | setValue (id : VariableId) (x : Option α) :
      (∀ a ∈ x, IsNumber a) →
      (∀ v, m.variableAt id = .ok v → v.fixed = true → x.isSome = true) →
      Change m (m.modifyVariable id fun v => { v with value := x })
  | setFixed (id : VariableId) (fixed : Bool) :
      (∀ v, m.variableAt id = .ok v → fixed = true → v.value.isSome = true) →
      Change m (m.modifyVariable id fun v => { v with fixed })
  | nameVariable (id : VariableId) (v : Variable α) (name : String) :
      m.variableAt id = .ok v → Change m { m with varNames := m.varNames.assign id name }
  | nameConstraint (id : ConstraintId) (c : Constraint α) (name : String) :
      m.constraintAt id = .ok c →
      Change m { m with constraintNames := m.constraintNames.assign id name }

/-- Some changes one after the other. -/
def Changes : Model α → Model α → Prop := Relation.ReflTransGen Change

theorem Changes.refl (m : Model α) : Changes m m := Relation.ReflTransGen.refl

theorem Change.changes {m m' : Model α} (h : Change m m') : Changes m m' :=
  Relation.ReflTransGen.single h

theorem Changes.trans {m m' m'' : Model α} (h : Changes m m') (h' : Changes m' m'') :
    Changes m m'' :=
  Relation.ReflTransGen.trans h h'

variable {m m' : Model α}

/-- What adding a variable has checked, and the model after it. -/
theorem addVariable_eq_ok {v : Variable α} {x : VariableId × Model α}
    (h : m.addVariable v = .ok x) :
    v.bounds.dropInfinite.hasNaN = false ∧ v.bounds.dropInfinite.crossed = false ∧
      (∀ a ∈ v.value, IsNumber a) ∧ (v.fixed = true → v.value.isSome = true) ∧
      x = (Id.ofIndex m.vars.size,
        { m with vars := m.vars.push { v with bounds := v.bounds.dropInfinite } }) := by
  -- The refusals are taken in their order, and each leaves a fact behind.
  simp only [Model.addVariable] at h
  split at h
  · exact absurd h (by simp only [reduceCtorEq, not_false_eq_true])
  · rename_i hbounds
    rw [Bool.not_eq_true, Bool.or_eq_false_iff] at hbounds
    split at h
    · exact absurd h (by simp only [reduceCtorEq, not_false_eq_true])
    · rename_i hvalue
      split at h
      · exact absurd h (by simp only [reduceCtorEq, not_false_eq_true])
      · rename_i hfixed
        rw [Except.ok.injEq] at h
        refine ⟨hbounds.1, hbounds.2, ?_, ?_, h.symm⟩
        · intro a ha
          exact Bool.eq_false_iff.mpr (Option.filter_eq_none_iff.mp hvalue a ha)
        · intro hf
          rw [hf, Bool.true_and, Bool.not_eq_true, Option.isNone_eq_false_iff] at hfixed
          exact hfixed

theorem addVariable_change {v : Variable α} {x : VariableId × Model α}
    (h : m.addVariable v = .ok x) : Change m x.2 := by
  rcases addVariable_eq_ok h with ⟨hnan, hordered, hvalue, hfixed, rfl⟩
  exact .addVariable v hnan hordered hvalue hfixed

/-- The model with one more constraint, which a block lists last. -/
def withConstraint (m : Model α) (block : BlockId) (r : Ranged α) : Model α :=
  { m with constraints := m.constraints.push { r with } }.modifyBlock block fun b =>
    { b with constraints := b.constraints ++ [Id.ofIndex m.constraints.size] }

omit [Scalar α] in
theorem missing?_eq_none {ids : List VariableId} :
    m.missing? ids = none ↔ ∀ v ∈ ids, v.index < m.vars.size := by
  rw [missing?, List.find?_eq_none]
  simp only [decide_eq_true_eq, Nat.not_le]

/-- What adding a constraint checks, and the model after it. -/
theorem addConstraintTo_eq_ok {block : BlockId} {r : Ranged α} {x : ConstraintId × Model α} :
    m.addConstraintTo block r = .ok x
      ↔ (∃ b, m.blockAt block = .ok b) ∧ r.bounds.hasNaN = false ∧ r.bounds.crossed = false ∧
        (∀ v ∈ r.body.occurrences, v.index < m.vars.size) ∧
        x = (Id.ofIndex m.constraints.size, m.withConstraint block r) := by
  have hmissing : m.missing? r.body.vars = none
      ↔ ∀ v ∈ r.body.occurrences, v.index < m.vars.size := by
    rw [missing?_eq_none]
    simp only [Poly.vars, List.mem_eraseDups]
  constructor
  · intro h
    rcases exists_of_bind_ok h with ⟨b, hb, h⟩
    split at h
    · cases h
    · rename_i hbounds
      rw [Bool.not_eq_true, Bool.or_eq_false_iff] at hbounds
      split at h
      · cases h
      · rename_i hfound
        exact ⟨⟨b, hb⟩, hbounds.1, hbounds.2, hmissing.mp hfound, (Except.ok.inj h).symm⟩
  · rintro ⟨⟨b, hb⟩, hnan, hordered, hvars, rfl⟩
    have hbounds : ¬ (r.bounds.hasNaN || r.bounds.crossed) = true := by
      rw [hnan, hordered]
      exact Bool.false_ne_true
    rw [Model.addConstraintTo, hb]
    change (if (r.bounds.hasNaN || r.bounds.crossed) = true then _ else _) = _
    rw [if_neg hbounds, hmissing.mpr hvars]
    rfl

theorem addConstraintTo_change {block : BlockId} {body : Poly α} {bounds : Bounds α}
    {x : ConstraintId × Model α}
    (h : m.addConstraintTo block (.ofBounds body bounds) = .ok x) : Change m x.2 := by
  rcases addConstraintTo_eq_ok.mp h with ⟨⟨b, hb⟩, hnan, hordered, hvars, rfl⟩
  exact .addConstraint block b body bounds hb hnan hordered hvars

omit [Scalar α] in
/-- What adding a block has checked, and the model after it. -/
theorem addBlock_eq_ok {parent : BlockId} {name : String} {x : BlockId × Model α}
    (h : (m.addBlock parent name).result = .ok x) :
    ∃ b, m.blockAt parent = .ok b ∧ m.hasChildNamed b name = false ∧
      x = (Id.ofIndex m.blocks.size,
        { m with blocks := m.blocks.push { name, parent := some parent } }.modifyBlock parent
          fun b => { b with children := b.children ++ [Id.ofIndex m.blocks.size] }) := by
  unfold Model.addBlock at h
  split at h
  · cases h
  · rename_i b hb
    split at h
    · cases h
    · rename_i hname
      rw [Bool.not_eq_true] at hname
      exact ⟨b, hb, hname, (Except.ok.inj h).symm⟩

theorem addBlock_change {parent : BlockId} {name : String} {x : BlockId × Model α}
    (h : (m.addBlock parent name).result = .ok x) : Change m x.2 := by
  rcases addBlock_eq_ok h with ⟨b, hb, hname, rfl⟩
  exact .addBlock parent b name hb hname

theorem setBlockActive_change {id : BlockId} {active : Bool}
    (h : m.setBlockActive id active = .ok m') : Change m m' := by
  rcases exists_of_bind_ok h with ⟨b, -, h⟩
  cases h
  exact .switchBlock id active

theorem setConstraintActive_change {id : ConstraintId} {active : Bool}
    (h : m.setConstraintActive id active = .ok m') : Change m m' := by
  rcases exists_of_bind_ok h with ⟨c, -, h⟩
  cases h
  exact .switchConstraint id active

theorem setBound_change {id : VariableId} {side : Side} {x : Option α}
    (h : m.setBound id side x = .ok m') : Change m m' := by
  rcases exists_of_bind_ok h with ⟨v, -, h⟩
  split at h
  · cases h
  · rename_i hnan
    cases h
    -- The infinity that restricts nothing was dropped, so what is set passes both checks.
    refine .setBound id side _ ?_ ?_
    · intro a ha
      rw [Option.mem_def.mp (Option.mem_filter_iff.mp ha).1, Option.any_some] at hnan
      exact Bool.eq_false_iff.mpr hnan
    · intro a ha
      rw [Option.mem_filter_iff, Bool.not_eq_true'] at ha
      exact ha.2

/-- What setting a value has checked, and the model after it. -/
theorem setValue_eq_ok {id : VariableId} {x : Option α} (h : m.setValue id x = .ok m') :
    (∀ a ∈ x, IsNumber a) ∧ (∀ v, m.variableAt id = .ok v → v.fixed = true → x.isSome = true) ∧
      m' = m.modifyVariable id fun v => { v with value := x } := by
  unfold Model.setValue at h
  split at h
  · cases h
  · rename_i hnan
    rcases exists_of_bind_ok h with ⟨v, hv, h⟩
    split at h
    · cases h
    · rename_i hfixed
      cases h
      refine ⟨fun a ha => Bool.eq_false_iff.mpr (Option.filter_eq_none_iff.mp hnan a ha), ?_, rfl⟩
      intro w hw hf
      rw [hv, Except.ok.injEq] at hw
      rw [hw, hf, Bool.true_and, Bool.not_eq_true, Option.isNone_eq_false_iff] at hfixed
      exact hfixed

theorem setValue_change {id : VariableId} {x : Option α} (h : m.setValue id x = .ok m') :
    Change m m' := by
  rcases setValue_eq_ok h with ⟨hnumber, hfixed, rfl⟩
  exact .setValue id x hnumber hfixed

theorem unfix_change {id : VariableId} (h : m.unfix id = .ok m') : Change m m' := by
  rcases exists_of_bind_ok h with ⟨v, -, h⟩
  cases h
  exact .setFixed id false fun _ _ hf => absurd hf Bool.false_ne_true

/-- Fixing a variable sets its value and then the switch. -/
theorem fix_changes {id : VariableId} {x : α} (h : m.fix id x = .ok m') : Changes m m' := by
  rcases exists_of_bind_ok h with ⟨valued, hvalued, h⟩
  cases h
  refine (setValue_change hvalued).changes.trans (Change.changes ?_)
  -- The variable has the value that was just set.
  refine .setFixed id true fun w hw _ => ?_
  rw [(setValue_eq_ok hvalued).2.2, variableAt_eq_ok, vars_modifyVariable, if_pos rfl,
    Option.map_eq_some_iff] at hw
  rcases hw with ⟨v, -, rfl⟩
  rfl

theorem nameVariable_change {id : VariableId} {name : String}
    (h : m.nameVariable id name = .ok m') : Change m m' := by
  rcases exists_of_bind_ok h with ⟨v, hv, h⟩
  cases h
  exact .nameVariable id v name hv

theorem nameConstraint_change {id : ConstraintId} {name : String}
    (h : m.nameConstraint id name = .ok m') : Change m m' := by
  rcases exists_of_bind_ok h with ⟨c, hc, h⟩
  cases h
  exact .nameConstraint id c name hc

end Model

namespace Run

open Model

/-- The model of a run, or of one that was stopped. -/
def modelOf : Except (Stopped α) (Run α) → Model α
  | .ok r => r.model
  | .error stopped => stopped.run.model

theorem recordBound_change {r r' : Run α} {constraint : ConstraintId} {var : VariableId}
    {side : Side} {previous : Option α} {current : α}
    (h : r.recordBound constraint var side previous current = .ok r') :
    Change r.model r'.model := by
  unfold recordBound at h
  split at h
  · cases h
  · rename_i hset
    cases h
    exact setBound_change hset

theorem tighten_changes {r r' : Run α} {constraint : ConstraintId} {var : VariableId} {side : Side}
    {candidate : α} (h : r.tighten constraint var side candidate = .ok r') :
    Changes r.model r'.model := by
  unfold tighten at h
  split at h
  · cases h
    exact .refl _
  · split at h
    · cases h
    · split at h
      · cases h
      · simp only at h
        split at h
        · cases h
          exact .refl _
        · exact (recordBound_change h).changes

theorem tightenImplied_changes {r r' : Run α} {constraint : ConstraintId} {var : VariableId}
    {k c : α} {side : Side} {bounds : Bounds α}
    (h : r.tightenImplied constraint var k c side bounds = .ok r') :
    Changes r.model r'.model := by
  unfold tightenImplied at h
  split at h
  · cases h
    exact .refl _
  · exact tighten_changes h

theorem impose_changes (r : Run α) (constraint : ConstraintId) (var : VariableId) (k c : α)
    (bounds : Bounds α) : Changes r.model (modelOf (r.impose constraint var k c bounds)) := by
  unfold impose
  split
  · exact .refl _
  · rename_i half hhalf
    have hfirst := tightenImplied_changes hhalf
    split
    · exact hfirst
    · rename_i both hboth
      exact hfirst.trans (tightenImplied_changes hboth)

theorem deactivate_change {r r' : Run α} {constraint : ConstraintId} {var : VariableId} {k : α}
    {degenerate : Bool} (h : r.deactivate constraint var k degenerate = .ok r') :
    Change r.model r'.model := by
  unfold deactivate at h
  split at h
  · cases h
  · rename_i hset
    cases h
    exact setConstraintActive_change hset

theorem recordValue_change {r r' : Run α} {var : VariableId} {previous current : α}
    (h : r.recordValue var previous current = .ok r') : Change r.model r'.model := by
  unfold recordValue at h
  split at h
  · cases h
  · rename_i hset
    cases h
    exact setValue_change hset

theorem repair_changes {r r' : Run α} {var : VariableId} (h : r.repair var = .ok r') :
    Changes r.model r'.model := by
  unfold repair at h
  split at h
  · cases h
  · split at h
    · cases h
      exact .refl _
    · simp only at h
      split at h
      · cases h
        exact .refl _
      · exact (recordValue_change h).changes

theorem foldSingle_changes (p : Pass α) (r : Run α) (constraint : ConstraintId) (var : VariableId)
    (k c : α) (bounds : Bounds α) :
    Changes r.model (modelOf (r.foldSingle p constraint var k c bounds)) := by
  have himposed : Changes r.model (modelOf (if p.isDegenerate k then .ok r.countDegenerate
      else r.impose constraint var k c bounds)) := by
    split
    · exact .refl _
    · exact impose_changes r constraint var k c bounds
  rw [foldSingle]
  split
  · -- The run stopped between two changes or before the first one.
    rename_i stopped hstopped
    rwa [hstopped] at himposed
  · rename_i bounded hbounded
    rw [hbounded] at himposed
    split
    · exact himposed
    · rename_i done hdone
      have hswitched := himposed.trans (deactivate_change hdone).changes
      split
      · exact hswitched
      · rename_i repaired hrepaired
        exact hswitched.trans (repair_changes hrepaired)

theorem visit_changes (p : Pass α) (r : Run α) (constraint : ConstraintId) :
    Changes r.model (modelOf (r.visit p constraint)) := by
  rw [visit]
  split
  · exact .refl _
  · split
    · exact .refl _
    · exact .refl _
    · split
      · exact .refl _
      · exact foldSingle_changes p r.countVisit constraint _ _ _ _

end Run

namespace Pass

open Model

theorem visitAll_changes (p : Pass α) (r : Run α) (ids : List ConstraintId) :
    Changes r.model (Run.modelOf (p.visitAll r ids)) := by
  induction ids generalizing r with
  | nil => exact .refl _
  | cons id rest ih =>
      have hfirst := r.visit_changes p id
      -- Whether or not the first visit stops, it has come to changes.
      rw [visitAll, List.foldlM_cons]
      cases hvisit : r.visit p id with
      | error stopped =>
          rw [hvisit] at hfirst
          exact hfirst
      | ok next =>
          rw [hvisit] at hfirst
          exact hfirst.trans (ih next)

/-- A run comes to changes, whatever its reduction answers and whether or not it
    succeeds. -/
theorem changes_run (p : Pass α) (m : Model α) : Changes m (p.run m).model := by
  have hall := p.visitAll_changes { model := m } (p.candidates m)
  unfold run
  split
  · rename_i stopped hstopped
    rwa [hstopped] at hall
  · rename_i r hr
    rwa [hr] at hall

end Pass

theorem Model.changes_orKeep {β : Type} {m : Model α} {result : Except (ModelError α) β}
    {changed : β → Model α} (h : ∀ x, result = .ok x → Model.Changes m (changed x)) :
    Model.Changes m (m.orKeep result changed) := by
  cases result with
  | ok x => exact h x rfl
  | error e => exact .refl m

/-- Every command comes to changes. -/
theorem Command.changes (m : Model α) (c : Command α) : Model.Changes m (c.apply m) := by
  cases c with
  | addVariable v => exact Model.changes_orKeep fun _ h => (Model.addVariable_change h).changes
  | addConstraintTo block body bounds =>
      exact Model.changes_orKeep fun _ h => (Model.addConstraintTo_change h).changes
  | addBlock parent name => exact Model.changes_orKeep fun _ h => (Model.addBlock_change h).changes
  | setBlockActive id active =>
      exact Model.changes_orKeep fun _ h => (Model.setBlockActive_change h).changes
  | setBound id side x => exact Model.changes_orKeep fun _ h => (Model.setBound_change h).changes
  | setValue id x => exact Model.changes_orKeep fun _ h => (Model.setValue_change h).changes
  | fix id x => exact Model.changes_orKeep fun _ h => Model.fix_changes h
  | unfix id => exact Model.changes_orKeep fun _ h => (Model.unfix_change h).changes
  | setConstraintActive id active =>
      exact Model.changes_orKeep fun _ h => (Model.setConstraintActive_change h).changes
  | nameVariable id name =>
      exact Model.changes_orKeep fun _ h => (Model.nameVariable_change h).changes
  | nameConstraint id name =>
      exact Model.changes_orKeep fun _ h => (Model.nameConstraint_change h).changes
  | run p => exact p.changes_run m

namespace Model

theorem changes_after (m : Model α) (commands : List (Command α)) :
    Changes m (m.after commands) := by
  induction commands generalizing m with
  | nil => exact .refl m
  | cons c rest ih => exact (c.changes m).trans (ih (c.apply m))

/-- What holds of the empty model and is kept by every change holds of every
    reachable model. -/
theorem Reachable.induction {P : Model α → Prop} (hempty : P .empty)
    (hstep : ∀ m m', Change m m' → P m → P m') {m : Model α} (h : m.Reachable) : P m := by
  rcases h with ⟨commands, hafter⟩
  have hchanges := changes_after Model.empty commands
  rw [hafter] at hchanges
  clear hafter
  -- The induction is on the changes that the commands come to.
  induction hchanges with
  | refl => exact hempty
  | tail _ hchange ih => exact hstep _ _ hchange ih

end Model

end Presolve
