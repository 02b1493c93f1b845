import Presolve.Proofs.Fold.Tightening
import Presolve.Proofs.Model.Frame
import Presolve.Proofs.Model.Structure

/-!
# Names over Histories

The names of a model are what its history has given. A command gives a name if it is a naming
and its id is one of the model, and of the names given to an id the last one counts. A name is
looked up among the names that count, so an id is no longer found by a name that was replaced,
and of several ids with one name the least is found.

There are two tables, and a command gives a name in one of them at most. The other table gives
the answers it gave before, and with a command that is not a naming or is refused both do. This
is so for runs as well, which tell names but do not give them.

## Main definitions

* `lastName`: Of the names given to an id, the one that counts.
* `NameTable.Follows`: A table answers as the names given make it.
* `Slot.isName`: A place of a model holds a name.
* `Command.naming?`: The name that a command gives.
* `Model.namings`: The names that a history gives, in order.
* `Model.NamesFollow`: What is known of the names of a model.

## Theorems

* `NameTable.first?_eq_some_iff`: The least id with a name is found.
* `Model.lookup_write_eq_error_iff`: When a naming is refused.
* `Model.read_name_apply`: What leaves a name alone.
* `Model.name?_table_apply`: What a command does to the names.
* `Model.name?_table_after`: What a history does to them.
* `Model.names_follow`: The names of a model after any history.
-/

namespace Presolve

variable {r : Registry}

/-- The last of the names given to an id. -/
def lastName (given : List (Id r × String)) (id : Id r) : Option String :=
  ((given.filter (·.1 = id)).map (·.2)).getLast?

theorem lastName_append (given given' : List (Id r × String)) (id : Id r) :
    lastName (given ++ given') id = (lastName given' id).or (lastName given id) := by
  rw [lastName, List.filter_append, List.map_append, List.getLast?_append]
  rfl

theorem lastName_singleton (e : Id r × String) (id : Id r) :
    lastName [e] id = if e.1 = id then some e.2 else none := by
  by_cases hid : e.1 = id <;> simp [lastName, hid]

namespace NameTable

variable {t : NameTable r} {id : Id r} {name : String}

theorem name?_assign_self (t : NameTable r) (id : Id r) (name : String) :
    (t.assign id name).name? id = some name :=
  Std.TreeMap.getElem?_insert_self

/-- A name that is given replaces the one before. -/
theorem name?_assign (t : NameTable r) (id id' : Id r) (name : String) :
    (t.assign id name).name? id' = (lastName [(id, name)] id').or (t.name? id') := by
  rw [lastName_singleton]
  by_cases hid : id = id'
  · rw [if_pos hid, ← hid, name?_assign_self, Option.some_or]
  · rw [if_neg hid, Model.name?_assign_of_ne t name fun h => hid h.symm, Option.none_or]

theorem mem_toList_iff : (id, name) ∈ t.entries.toList ↔ t.name? id = some name :=
  Std.TreeMap.mem_toList_iff_getElem?_eq_some

/-- An id that is found by a name has it. -/
theorem name?_of_first? (h : t.first? name = some id) : t.name? id = some name := by
  rcases Option.map_eq_some_iff.mp h with ⟨⟨id', name'⟩, he, rfl⟩
  rcases (eq_of_beq (List.find?_eq_some_iff_append.mp he).1 : name' = name) with rfl
  exact mem_toList_iff.mp (List.mem_of_find?_eq_some he)

/-- An id that is found by a name is not above any other that has it. -/
theorem index_le_of_first? (h : t.first? name = some id) {id' : Id r}
    (hid' : t.name? id' = some name) : id.index ≤ id'.index := by
  rcases Option.map_eq_some_iff.mp h with ⟨e, he, rfl⟩
  rcases List.find?_eq_some_iff_append.mp he with ⟨hname, before, after, hsplit, hbefore⟩
  have hordered : t.entries.toList.Pairwise fun a b => compare a.1 b.1 = .lt :=
    Std.TreeMap.ordered_keys_toList
  have hmem := mem_toList_iff.mpr hid'
  rw [hsplit, List.pairwise_append] at hordered
  rw [hsplit, List.mem_append, List.mem_cons] at hmem
  rcases hmem with hmem | hmem | hmem
  · have hne := hbefore _ hmem
    simp only [beq_self_eq_true, Bool.not_true, Bool.false_eq_true] at hne
  · rw [← hmem]
  · have hlt : compare e.1.val id'.val = .lt := (List.pairwise_cons.mp hordered.2.1).1 _ hmem
    exact (UInt32.lt_iff_toNat_lt.mp (compareOfLessAndEq_eq_lt.mp hlt)).le

/-- Nothing is found by a name that no id has. -/
theorem first?_eq_none_iff : t.first? name = none ↔ ∀ id, t.name? id ≠ some name := by
  rw [first?, Option.map_eq_none_iff, List.find?_eq_none]
  constructor
  · intro h id hid
    exact h (id, name) (mem_toList_iff.mpr hid) (beq_self_eq_true name)
  · rintro h ⟨id, name'⟩ he heq
    rcases (eq_of_beq heq : name' = name) with rfl
    exact h id (mem_toList_iff.mp he)

/-- The least id that has a name is found by it. -/
theorem first?_eq_some_iff :
    t.first? name = some id
      ↔ t.name? id = some name ∧ ∀ id', t.name? id' = some name → id.index ≤ id'.index := by
  refine ⟨fun h => ⟨name?_of_first? h, fun _ => index_le_of_first? h⟩, ?_⟩
  rintro ⟨hid, hleast⟩
  cases hfound : t.first? name with
  | none => exact absurd hid (first?_eq_none_iff.mp hfound id)
  | some id' =>
      -- Each of the two is not above the other.
      have hle := index_le_of_first? hfound hid
      exact congrArg some (Id.index_inj (hle.antisymm (hleast id' (name?_of_first? hfound))))

/-- What is found by a name depends on the names of the ids alone. -/
theorem first?_congr {t' : NameTable r} (h : t.name? = t'.name?) : t.first? = t'.first? := by
  funext name
  refine Option.ext fun id => ?_
  rw [first?_eq_some_iff, first?_eq_some_iff, h]

/-- The table answers as the names given make it. -/
structure Follows (t : NameTable r) (given : List (Id r × String)) : Prop where
  /-- The last name given to an id is its name. -/
  name : ∀ id, t.name? id = lastName given id
  /-- The least id that has a name is found by it. -/
  first : ∀ name id, t.first? name = some id
    ↔ lastName given id = some name ∧
      ∀ id', lastName given id' = some name → id.index ≤ id'.index
  /-- Nothing is found by a name that no id has now. -/
  missing : ∀ name, t.first? name = none ↔ ∀ id, lastName given id ≠ some name

theorem follows_of_name? {given : List (Id r × String)} (h : ∀ id, t.name? id = lastName given id) :
    t.Follows given where
  name := h
  first name id := by simp only [first?_eq_some_iff, h]
  missing name := by simp only [first?_eq_none_iff, h]

end NameTable

/-- The place holds a name. -/
def Slot.isName : Slot → Bool
  | varName _ | constraintName _ => true
  | _ => false

variable {α : Type} [Scalar α]

/-- The name that a command gives in a registry, if it is a naming there and is not refused. -/
def Command.naming? (m : Model α) : (r : Registry) → Command α → Option (Id r × String)
  | .vars, nameVariable id name =>
    if (m.nameVariable id name).isOk then some (id, name) else none
  | .constraints, nameConstraint id name =>
    if (m.nameConstraint id name).isOk then some (id, name) else none
  | _, _ => none

namespace Model

/-- The names given in a registry by a history, in order. -/
def namings (r : Registry) (m : Model α) : List (Command α) → List (Id r × String)
  | [] => []
  | c :: rest => (c.naming? m r).toList ++ namings r (c.apply m) rest

omit [Scalar α] in
/-- The names of a registry. A block has its name in itself. -/
def table (m : Model α) : (r : Registry) → NameTable r
  | .vars => m.varNames
  | .constraints => m.constraintNames
  | .blocks => .empty

/-- A write that has to find its entry first is refused where there is none, and for no
    other reason. -/
theorem lookup_write_eq_error_iff {β γ ε : Type} {entries : Array β} {i : Nat} {unknown e : ε}
    {lookup : Except ε β} (hlookup : lookup = entries[i]?.elim (.error unknown) .ok)
    (written : γ) :
    (do let _ ← lookup; return written) = .error e ↔ entries.size ≤ i ∧ e = unknown := by
  rw [hlookup]
  by_cases hi : i < entries.size
  · rw [Array.getElem?_eq_getElem hi]
    exact iff_of_false (fun h => by cases h) fun h => absurd hi (Nat.not_lt.mpr h.1)
  · rw [Array.getElem?_eq_none (Nat.not_lt.mp hi)]
    constructor
    · rintro ⟨⟩
      exact ⟨Nat.not_lt.mp hi, rfl⟩
    · rintro ⟨-, rfl⟩
      rfl

variable {m : Model α}

omit [Scalar α] in
/-- A variable is refused a name if it does not exist. -/
theorem nameVariable_eq_error_iff {id : VariableId} {name : String} {e : ModelError α} :
    m.nameVariable id name = .error e ↔ m.vars.size ≤ id.index ∧ e = .unknownVariable id := by
  refine lookup_write_eq_error_iff ?_ _
  rw [variableAt]
  cases m.vars[id.index]? <;> rfl

omit [Scalar α] in
/-- A constraint is refused a name if it does not exist. -/
theorem nameConstraint_eq_error_iff {id : ConstraintId} {name : String} {e : ModelError α} :
    m.nameConstraint id name = .error e
      ↔ m.constraints.size ≤ id.index ∧ e = .unknownConstraint id := by
  refine lookup_write_eq_error_iff ?_ _
  rw [constraintAt]
  cases m.constraints[id.index]? <;> rfl

omit [Scalar α] in
/-- A naming gives its name if the entry is found. -/
theorem name?_orKeep {β : Type} {lookup : Except (ModelError α) β} {named : Model α}
    (t : Model α → NameTable r) {id : Id r} {name : String} (h : t named = (t m).assign id name)
    (id' : Id r) :
    (t (m.orKeep (do let _ ← lookup; return named) (·))).name? id'
      = (lastName (if (do let _ ← lookup; return named : Except (ModelError α) (Model α)).isOk
          then some (id, name) else none).toList id').or ((t m).name? id') := by
  cases lookup with
  | error e => rfl
  | ok x => exact (congrArg (·.name? id') h).trans (NameTable.name?_assign (t m) id id' name)

variable [OrderedScalar α]

/-- A command that does not write to the place of a name leaves the name alone. Runs may write
    to any place, but give no names. -/
theorem read_name_apply (hm : m.Sound) {c : Command α} {s : Slot} (hs : s.isName = true)
    (hc : c.Touches m s → ∃ p, c = .run p) : (c.apply m).read s = m.read s := by
  by_cases htouches : c.Touches m s
  · rcases hc htouches with ⟨p, rfl⟩
    have hrun := p.tightened_model_run hm
    cases s with
    | varName id => exact congrArg (·.name? id) hrun.varNames
    | constraintName id => exact congrArg (·.name? id) hrun.constraintNames
    | _ => cases hs
  · exact Command.read_apply htouches

/-- What a command does to the names of a registry: it gives one or leaves all alone. -/
theorem name?_table_apply (hm : m.Sound) (c : Command α) (r : Registry) (id : Id r) :
    ((c.apply m).table r).name? id
      = (lastName (c.naming? m r).toList id).or ((m.table r).name? id) := by
  cases r with
  | blocks => cases c <;> rfl
  | vars =>
      cases c with
      | nameVariable id' name => exact name?_orKeep (·.varNames) rfl id
      | _ => exact read_name_apply (s := .varName id) hm rfl (by simp [Command.Touches])
  | constraints =>
      cases c with
      | nameConstraint id' name => exact name?_orKeep (·.constraintNames) rfl id
      | _ => exact read_name_apply (s := .constraintName id) hm rfl (by simp [Command.Touches])

/-- A command that gives no name in a registry does not change its answers. -/
theorem table_apply_of_naming?_eq_none (hm : m.Sound) {c : Command α} {r : Registry}
    (hc : c.naming? m r = none) :
    ((c.apply m).table r).name? = (m.table r).name? ∧
      ((c.apply m).table r).first? = (m.table r).first? := by
  have hname : ((c.apply m).table r).name? = (m.table r).name? := by
    funext id
    rw [name?_table_apply hm, hc]
    rfl
  exact ⟨hname, NameTable.first?_congr hname⟩

/-- What a history does to the names of a registry. -/
theorem name?_table_after (hm : m.Sound) (commands : List (Command α)) (r : Registry)
    (id : Id r) :
    ((m.after commands).table r).name? id
      = (lastName (m.namings r commands) id).or ((m.table r).name? id) := by
  -- The rest of the history starts from the model after its first command.
  induction commands generalizing m with
  | nil => rfl
  | cons c rest ih =>
      refine (ih (hm.changes (c.changes m))).trans ?_
      rw [name?_table_apply hm, namings, lastName_append, Option.or_assoc]

/-- The tables of a model answer as its history makes them. -/
theorem follows_table (commands : List (Command α)) (r : Registry) :
    (((empty : Model α).after commands).table r).Follows (empty.namings r commands) := by
  refine NameTable.follows_of_name? fun id => ?_
  have hempty : ((empty : Model α).table r).name? id = none := by
    cases r <;> exact NameTable.name?_empty id
  rw [name?_table_after sound_empty, hempty, Option.or_none]

/-- What is known of the names of a model after some commands. -/
structure NamesFollow (m : Model α) (commands : List (Command α)) : Prop where
  vars : m.varNames.Follows (empty.namings .vars commands)
  constraints : m.constraintNames.Follows (empty.namings .constraints commands)
  /-- A name is refused to a variable that does not exist, and to no other. -/
  variable_refused : ∀ id name e, m.nameVariable id name = .error e
    ↔ m.vars.size ≤ id.index ∧ e = .unknownVariable id
  /-- A name is refused to a constraint that does not exist, and to no other. -/
  constraint_refused : ∀ id name e, m.nameConstraint id name = .error e
    ↔ m.constraints.size ≤ id.index ∧ e = .unknownConstraint id
  /-- Nothing but a naming of a variable has an effect on the names of variables. -/
  vars_kept : ∀ c : Command α, (∀ id name, c ≠ .nameVariable id name) →
    (c.apply m).varNames.name? = m.varNames.name? ∧
      (c.apply m).varNames.first? = m.varNames.first?
  /-- Nothing but a naming of a constraint has an effect on the names of constraints. -/
  constraints_kept : ∀ c : Command α, (∀ id name, c ≠ .nameConstraint id name) →
    (c.apply m).constraintNames.name? = m.constraintNames.name? ∧
      (c.apply m).constraintNames.first? = m.constraintNames.first?

/-- The names of a model are those its history gave, whatever else was done with it. -/
theorem names_follow (commands : List (Command α)) :
    ((empty : Model α).after commands).NamesFollow commands := by
  have hsound : ((empty : Model α).after commands).Sound :=
    sound_empty.changes (changes_after _ commands)
  refine ⟨follows_table commands .vars, follows_table commands .constraints,
    fun _ _ _ => nameVariable_eq_error_iff, fun _ _ _ => nameConstraint_eq_error_iff,
    fun c hc => table_apply_of_naming?_eq_none (r := .vars) hsound ?_,
    fun c hc => table_apply_of_naming?_eq_none (r := .constraints) hsound ?_⟩
  · cases c with
    | nameVariable id name => exact absurd rfl (hc id name)
    | _ => rfl
  · cases c with
    | nameConstraint id name => exact absurd rfl (hc id name)
    | _ => rfl

/-- The second variable takes over a name that the first one has given up, and is then passed
    by the first one again. The third one does not exist. -/
example :
    let commands : List (Command Float) :=
      [.addVariable {}, .addVariable {}, .nameVariable ⟨0⟩ "x", .nameVariable ⟨1⟩ "x",
        .nameVariable ⟨0⟩ "", .nameVariable ⟨2⟩ "x", .nameConstraint ⟨0⟩ "x", .run .standard]
    let m := Model.empty.after commands
    let m' := m.after [.nameVariable ⟨0⟩ "x"]
    m.varNames.first? "x" = some ⟨1⟩ ∧ m.varNames.first? "" = some ⟨0⟩ ∧
      m.constraintNames.first? "x" = none ∧ m'.varNames.first? "x" = some ⟨0⟩ := by
  decide +kernel

end Model

end Presolve
