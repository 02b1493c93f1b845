import Presolve.Proofs.Model.Frame

/-!
# Editing in Place

An edit gives a new model or a refusal, and a refusal comes without a model, so nothing can be
half done. A program that holds one model and writes to it has no such guarantee. It makes its
checks and its writes one after the other, and what was written stays there if a later check
fails. Fixing a variable writes twice with a check in between, and adding a constraint or a
block writes to the registry and then to a list.

Here every edit is written out in that manner, each check and each write in its place. It
comes to the same: an edit in place answers what the edit answers and leaves the model that
the edit gives, and after a refusal it leaves the model as it was. This is because no write
comes before a check that can fail. The second check of fixing a variable is for the variable
that has just been given a value.

## Main definitions

* `Editing`: A computation that holds a model and writes to it.
* `Editing.check`, `Editing.write`: Its two kinds of steps.
* `Editing.setValue`, `Editing.fix`, `Editing.addConstraintTo`, ...: The edits in place.
* `Model.commit`: What an answer means for a model that is held.
* `Command.edit?`: The edit of a command in place.

## Theorems

* `Editing.fix_eq`, `Editing.addConstraintTo_eq`, ...: An edit in place is the edit.
* `Command.edit_eq`: An edit in place leaves the model after the command.
* `Command.edit_frame`: A refused edit writes nothing, and no edit writes elsewhere.
-/

namespace Presolve

variable {α β : Type}

/-- A computation that holds a model and may fail. What it has written stays written. -/
abbrev Editing (α β : Type) := EStateM (ModelError α) (Model α) β

/-- What is left of a held model after an answer: the model that comes with it, or the one
    before if it is a refusal. -/
def Model.commit (m : Model α) :
    Except (ModelError α) (β × Model α) → EStateM.Result (ModelError α) (Model α) β
  | .ok (x, m') => .ok x m'
  | .error e => .error e m

namespace Editing

/-- Ask the held model for something that it may not have. -/
def check (f : Model α → Except (ModelError α) β) : Editing α β := fun m =>
  m.commit ((f m).map fun x => (x, m))

/-- Change the held model. -/
def write (f : Model α → Model α) : Editing α Unit := fun m => .ok () (f m)

section Steps

variable {γ : Type} {m m' : Model α} {op : Editing α β} {next : β → Editing α γ}

theorem bind_ok {x : β} (h : op m = .ok x m') : (op >>= next) m = next x m' := by
  change EStateM.bind op next m = _
  rw [EStateM.bind, h]

theorem bind_error {e : ModelError α} (h : op m = .error e m') :
    (op >>= next) m = .error e m' := by
  change EStateM.bind op next m = _
  rw [EStateM.bind, h]

theorem check_ok {f : Model α → Except (ModelError α) β} {x : β} (h : f m = .ok x) :
    check f m = .ok x m := by
  rw [check, h]
  rfl

theorem check_error {f : Model α → Except (ModelError α) β} {e : ModelError α}
    (h : f m = .error e) : check f m = .error e m := by
  rw [check, h]
  rfl

theorem get_bind (next : Model α → Editing α γ) (m : Model α) :
    (get >>= next) m = next m m := rfl

/-- One check and one write. -/
theorem check_write_eq (f : Model α → Except (ModelError α) β) (g : Model α → Model α)
    (m : Model α) : (check f >>= fun _ => write g) m
      = m.commit ((f m >>= fun _ => .ok (g m)).map fun m' => ((), m')) := by
  cases hf : f m with
  | error e =>
      rw [bind_error (check_error hf)]
      rfl
  | ok x =>
      rw [bind_ok (check_ok hf)]
      rfl

/-- An answer that is not asked for does not matter to the model. -/
theorem discard_eq {op : Editing α β} {m : Model α} {result : Except (ModelError α) (β × Model α)}
    (h : op m = m.commit result) :
    discard op m = m.commit (result.map fun x => ((), x.2)) := by
  change EStateM.map (fun _ => ()) op m = _
  rw [EStateM.map, h]
  cases result <;> rfl

end Steps

/-- Switch a block on or off. -/
def setBlockActive (id : BlockId) (active : Bool) : Editing α Unit := do
  let _ ← check (·.blockAt id)
  write (·.modifyBlock id fun b => { b with active })

theorem setBlockActive_eq (id : BlockId) (active : Bool) (m : Model α) :
    setBlockActive id active m
      = m.commit ((m.setBlockActive id active).map fun m' => ((), m')) :=
  check_write_eq _ _ m

/-- Switch a constraint on or off. -/
def setConstraintActive (id : ConstraintId) (active : Bool) : Editing α Unit := do
  let _ ← check (·.constraintAt id)
  write (·.modifyConstraint id fun c => { c with active })

theorem setConstraintActive_eq (id : ConstraintId) (active : Bool) (m : Model α) :
    setConstraintActive id active m
      = m.commit ((m.setConstraintActive id active).map fun m' => ((), m')) :=
  check_write_eq _ _ m

/-- Release a fixed variable. -/
def unfix (id : VariableId) : Editing α Unit := do
  let _ ← check (·.variableAt id)
  write (·.modifyVariable id fun v => { v with fixed := false })

theorem unfix_eq (id : VariableId) (m : Model α) :
    unfix id m = m.commit ((m.unfix id).map fun m' => ((), m')) :=
  check_write_eq _ _ m

/-- Give a variable a name. -/
def nameVariable (id : VariableId) (name : String) : Editing α Unit := do
  let _ ← check (·.variableAt id)
  write fun m => { m with varNames := m.varNames.assign id name }

theorem nameVariable_eq (id : VariableId) (name : String) (m : Model α) :
    nameVariable id name m = m.commit ((m.nameVariable id name).map fun m' => ((), m')) :=
  check_write_eq _ _ m

/-- Give a constraint a name. -/
def nameConstraint (id : ConstraintId) (name : String) : Editing α Unit := do
  let _ ← check (·.constraintAt id)
  write fun m => { m with constraintNames := m.constraintNames.assign id name }

theorem nameConstraint_eq (id : ConstraintId) (name : String) (m : Model α) :
    nameConstraint id name m = m.commit ((m.nameConstraint id name).map fun m' => ((), m')) :=
  check_write_eq _ _ m

/-- Add an empty block under a parent. -/
def addBlock (parent : BlockId) (name : String) : Editing α BlockId := do
  let p ← check (·.blockAt parent)
  if (← get).hasChildNamed p name then
    throw (.duplicateBlockName name)
  else
    let id : BlockId := .ofIndex (← get).blocks.size
    write fun m => { m with blocks := m.blocks.push { name, parent := some parent } }
    write (·.modifyBlock parent fun b => { b with children := b.children ++ [id] })
    return id

theorem addBlock_eq (parent : BlockId) (name : String) (m : Model α) :
    addBlock parent name m = m.commit (m.addBlock parent name).result := by
  rw [addBlock, Model.addBlock]
  cases hp : m.blockAt parent with
  | error e => exact bind_error (check_error hp)
  | ok p =>
      rw [bind_ok (check_ok hp)]
      by_cases htaken : m.hasChildNamed p name = true
      · rw [get_bind, if_pos htaken]
        simp only [if_pos htaken]
        rfl
      · rw [get_bind, if_neg htaken]
        simp only [if_neg htaken]
        rfl

/-- Ask for some variables, one after the other. -/
def checkVariables : List VariableId → Editing α Unit
  | [] => return
  | id :: rest => do
    let _ ← check (·.variableAt id)
    checkVariables rest

/-- The variables that are asked for one after the other are all there, or the first one that
    is missing is named. -/
theorem checkVariables_eq (ids : List VariableId) (m : Model α) : checkVariables ids m
    = m.commit ((m.missing? ids).elim (.ok ((), m)) fun id => .error (.unknownVariable id)) := by
  induction ids with
  | nil => rfl
  | cons id rest ih =>
      rw [checkVariables, Model.missing?, List.find?_cons]
      cases hv : m.vars[id.index]? with
      | none =>
          have hfault : m.variableAt id = .error (.unknownVariable id) := by
            rw [Model.variableAt, hv]
          rw [bind_error (check_error hfault),
            decide_eq_true (Array.getElem?_eq_none_iff.mp hv)]
          rfl
      | some v =>
          -- The search passes a variable that is there, with the same model.
          have hsize := (Array.getElem?_eq_some_iff.mp hv).1
          rw [bind_ok (check_ok (Model.variableAt_eq_ok.mpr hv)), ih, Model.missing?,
            decide_eq_false (Nat.not_le.mpr hsize)]

variable [Scalar α]

/-- Add a variable. -/
def addVariable (v : Variable α) : Editing α VariableId := do
  let bounds := v.bounds.dropInfinite
  if bounds.hasNaN || bounds.crossed then
    throw (.invalidVariableBounds bounds)
  else if let some x := v.value.filter Scalar.isNaN then
    throw (.invalidValue x)
  else if v.fixed && v.value.isNone then
    throw .fixedWithoutValue
  else
    let id : VariableId := .ofIndex (← get).vars.size
    write fun m => { m with vars := m.vars.push { v with bounds } }
    return id

theorem addVariable_eq (v : Variable α) (m : Model α) :
    addVariable v m = m.commit (m.addVariable v) := by
  rw [addVariable, Model.addVariable]
  by_cases hbounds : (v.bounds.dropInfinite.hasNaN || v.bounds.dropInfinite.crossed) = true
  · simp only [hbounds, if_true]
    rfl
  · simp only [if_neg hbounds]
    cases v.value.filter Scalar.isNaN with
    | some x => rfl
    | none =>
        by_cases hfixed : (v.fixed && v.value.isNone) = true
        · simp only [hfixed, if_true]
          rfl
        · simp only [if_neg hfixed]
          rfl

/-- Add a constraint to a block. -/
def addConstraintTo (block : BlockId) (r : Ranged α) : Editing α ConstraintId := do
  let _ ← check (·.blockAt block)
  if r.bounds.hasNaN || r.bounds.crossed then
    throw (.invalidConstraintBounds r.bounds)
  else
    checkVariables r.body.vars
    let id : ConstraintId := .ofIndex (← get).constraints.size
    write fun m => { m with constraints := m.constraints.push { r with } }
    write (·.modifyBlock block fun b => { b with constraints := b.constraints ++ [id] })
    return id

theorem addConstraintTo_eq (block : BlockId) (r : Ranged α) (m : Model α) :
    addConstraintTo block r m = m.commit (m.addConstraintTo block r) := by
  rw [addConstraintTo, Model.addConstraintTo]
  cases hb : m.blockAt block with
  | error e => exact bind_error (check_error hb)
  | ok b =>
      rw [bind_ok (check_ok hb)]
      by_cases hbounds : (r.bounds.hasNaN || r.bounds.crossed) = true
      · simp only [hbounds, if_true]
        rfl
      · -- All variables are asked for before the first write.
        have hvars := checkVariables_eq r.body.vars m
        simp only [if_neg hbounds]
        cases hmissing : m.missing? r.body.vars with
        | some id =>
            rw [hmissing] at hvars
            rw [bind_error hvars]
            rfl
        | none =>
            rw [hmissing] at hvars
            rw [bind_ok hvars]
            rfl

/-- Replace one bound of a variable. -/
def setBound (id : VariableId) (side : Side) (x : Option α) : Editing α Unit := do
  let v ← check (·.variableAt id)
  if x.any Scalar.isNaN then
    throw (.invalidVariableBounds (v.bounds.set side x))
  else
    write (·.modifyVariable id fun v =>
      { v with bounds := v.bounds.set side (x.filter (!side.isUnbounding ·)) })

theorem setBound_eq (id : VariableId) (side : Side) (x : Option α) (m : Model α) :
    setBound id side x m = m.commit ((m.setBound id side x).map fun m' => ((), m')) := by
  rw [setBound, Model.setBound]
  cases hv : m.variableAt id with
  | error e => exact bind_error (check_error hv)
  | ok v =>
      rw [bind_ok (check_ok hv)]
      by_cases hnan : x.any Scalar.isNaN = true
      · simp only [hnan, if_true]
        rfl
      · simp only [if_neg hnan]
        rfl

/-- Replace the value of a variable. -/
def setValue (id : VariableId) (x : Option α) : Editing α Unit := do
  if let some nan := x.filter Scalar.isNaN then
    throw (.invalidValue nan)
  else
    let v ← check (·.variableAt id)
    if v.fixed && x.isNone then
      throw .fixedWithoutValue
    else
      write (·.modifyVariable id fun v => { v with value := x })

theorem setValue_eq (id : VariableId) (x : Option α) (m : Model α) :
    setValue id x m = m.commit ((m.setValue id x).map fun m' => ((), m')) := by
  rw [setValue, Model.setValue]
  cases x.filter Scalar.isNaN with
  | some nan => rfl
  | none =>
      cases hv : m.variableAt id with
      | error e => exact bind_error (check_error hv)
      | ok v =>
          refine (bind_ok (check_ok hv)).trans ?_
          -- Whether the last check fails depends on the variable that was found.
          simp only [bind, Except.bind]
          by_cases hfixed : (v.fixed && x.isNone) = true
          · simp only [if_pos hfixed]
            rfl
          · simp only [if_neg hfixed]
            rfl

/-- Fix a variable at a value: give it the value, then ask for it again and set the flag. -/
def fix (id : VariableId) (x : α) : Editing α Unit := do
  setValue id (some x)
  let _ ← check (·.variableAt id)
  write (·.modifyVariable id fun v => { v with fixed := true })

/-- A variable that was given a value is there. -/
theorem exists_variableAt_of_setValue {id : VariableId} {x : Option α} {m m' : Model α}
    (h : m.setValue id x = .ok m') : ∃ v, m'.variableAt id = .ok v := by
  unfold Model.setValue at h
  split at h
  · cases h
  · rcases exists_of_bind_ok h with ⟨v, hv, h⟩
    split at h
    · cases h
    · cases h
      exact ⟨_, Model.variableAt_modifyVariable_self _ hv⟩

/-- The variable that was given a value is there when its flag is set, so fixing never stops
    between its two writes. -/
theorem fix_eq (id : VariableId) (x : α) (m : Model α) :
    fix id x m = m.commit ((m.fix id x).map fun m' => ((), m')) := by
  rw [fix, Model.fix]
  have hvalue := setValue_eq id (some x) m
  cases hset : m.setValue id (some x) with
  | error e =>
      rw [hset] at hvalue
      rw [bind_error hvalue]
      rfl
  | ok m' =>
      -- The second check is made in the model after the first write.
      rw [hset] at hvalue
      rcases exists_variableAt_of_setValue hset with ⟨v, hv⟩
      rw [bind_ok hvalue, bind_ok (check_ok hv)]
      rfl

end Editing

variable [Scalar α]

/-- The edit of a command in place, its answer left aside. A run is no edit. -/
def Command.edit? : Command α → Option (Editing α Unit)
  | addVariable v => some (discard (Editing.addVariable v))
  | addConstraintTo block body bounds =>
    some (discard (Editing.addConstraintTo block (.ofBounds body bounds)))
  | addBlock parent name => some (discard (Editing.addBlock parent name))
  | setBlockActive id active => some (Editing.setBlockActive id active)
  | setBound id side x => some (Editing.setBound id side x)
  | setValue id x => some (Editing.setValue id x)
  | fix id x => some (Editing.fix id x)
  | unfix id => some (Editing.unfix id)
  | setConstraintActive id active => some (Editing.setConstraintActive id active)
  | nameVariable id name => some (Editing.nameVariable id name)
  | nameConstraint id name => some (Editing.nameConstraint id name)
  | run _ => none

namespace Command

variable {c : Command α} {op : Editing α Unit}

/-- An edit in place that comes to an answer from which the command takes its model. -/
theorem exists_commit_of_map {γ : Type} {m : Model α} {result : Except (ModelError α) γ}
    {f : γ → Unit × Model α} (hop : op m = m.commit (result.map f))
    (happly : c.apply m = m.orKeep result fun x => (f x).2) :
    ∃ result' : Except (ModelError α) (Unit × Model α),
      op m = m.commit result' ∧ c.apply m = m.orKeep result' (·.2) := by
  refine ⟨_, hop, happly.trans ?_⟩
  cases result <;> rfl

/-- Every edit in place does what its command does. -/
theorem edit_eq (h : c.edit? = some op) (m : Model α) :
    ∃ result : Except (ModelError α) (Unit × Model α),
      op m = m.commit result ∧ c.apply m = m.orKeep result (·.2) := by
  cases c with
  | addVariable v =>
      cases h
      exact exists_commit_of_map (Editing.discard_eq (Editing.addVariable_eq v m)) rfl
  | addConstraintTo block body bounds =>
      cases h
      exact exists_commit_of_map (Editing.discard_eq (Editing.addConstraintTo_eq block _ m)) rfl
  | addBlock parent name =>
      cases h
      exact exists_commit_of_map (Editing.discard_eq (Editing.addBlock_eq parent name m)) rfl
  | setBlockActive id active =>
      cases h
      exact exists_commit_of_map (Editing.setBlockActive_eq id active m) rfl
  | setBound id side x =>
      cases h
      exact exists_commit_of_map (Editing.setBound_eq id side x m) rfl
  | setValue id x =>
      cases h
      exact exists_commit_of_map (Editing.setValue_eq id x m) rfl
  | fix id x =>
      cases h
      exact exists_commit_of_map (Editing.fix_eq id x m) rfl
  | unfix id =>
      cases h
      exact exists_commit_of_map (Editing.unfix_eq id m) rfl
  | setConstraintActive id active =>
      cases h
      exact exists_commit_of_map (Editing.setConstraintActive_eq id active m) rfl
  | nameVariable id name =>
      cases h
      exact exists_commit_of_map (Editing.nameVariable_eq id name m) rfl
  | nameConstraint id name =>
      cases h
      exact exists_commit_of_map (Editing.nameConstraint_eq id name m) rfl
  | run p => cases h

/-- An edit in place that is refused leaves the model as it was. One that is not leaves the
    model after the command, and that reads as before at all places that the command does not
    touch. -/
theorem edit_frame (h : c.edit? = some op) (m : Model α) :
    (∀ e m', op m = .error e m' → m' = m ∧ c.apply m = m) ∧
      ∀ x m', op m = .ok x m' →
        m' = c.apply m ∧ ∀ s, ¬ c.Touches m s → m'.read s = m.read s := by
  rcases edit_eq h m with ⟨result, hop, happly⟩
  rw [hop, happly]
  cases result with
  | error e =>
      constructor
      · intro e' m' hm'
        cases hm'
        exact ⟨rfl, rfl⟩
      · intro x m' hm'
        cases hm'
  | ok y =>
      constructor
      · intro e m' hm'
        cases hm'
      · intro x m' hm'
        cases hm'
        refine ⟨rfl, fun s hs => ?_⟩
        have hread := read_apply hs
        rwa [happly] at hread

/-- A constraint on a variable that does not exist is refused after its block was found. A
    variable is fixed at 5, and nothing else reads differently. -/
theorem edit_frame_fixed :
    ∃ (m m' m'' : Model Float) (refused accepted : Editing Float Unit) (e : ModelError Float),
      m = (Model.empty : Model Float).after [.addVariable {},
        .addVariable { value := some 3, fixed := true }, .addBlock rootBlock "plant"] ∧
      (addConstraintTo ⟨1⟩ (.term ⟨7⟩ 1) {}).edit? = some refused ∧
      (fix ⟨0⟩ 5).edit? = some accepted ∧
      refused m = .error e m' ∧ m' = m ∧ accepted m = .ok () m'' ∧
      ∀ s, s ≠ .var 0 .value → s ≠ .var 0 .fixed → m''.read s = m.read s := by
  set m := (Model.empty : Model Float).after [.addVariable {},
    .addVariable { value := some 3, fixed := true }, .addBlock rootBlock "plant"]
  let refused : Editing Float Unit :=
    discard (Editing.addConstraintTo ⟨1⟩ (.ofBounds (.term ⟨7⟩ 1) {}))
  let accepted : Editing Float Unit := Editing.fix ⟨0⟩ 5
  have hrefused : refused m = .error (.unknownVariable ⟨7⟩) m := by rfl
  have haccepted : ∃ m'', accepted m = .ok () m'' := ⟨_, rfl⟩
  rcases haccepted with ⟨m'', haccepted⟩
  refine ⟨m, m, m'', refused, accepted, _, rfl, rfl, rfl, hrefused,
    ((edit_frame (c := addConstraintTo ⟨1⟩ (.term ⟨7⟩ 1) {}) rfl m).1 _ _ hrefused).1, haccepted,
    fun s hvalue hfixed => ?_⟩
  refine ((edit_frame (c := fix ⟨0⟩ 5) rfl m).2 _ _ haccepted).2 s ?_
  rintro (hs | hs)
  · exact hvalue hs
  · exact hfixed hs

end Command

end Presolve
