import Presolve.Proofs.Fold.Effect

/-!
# Recorded Changes

What a run writes down about its changes, and that it writes down what it does. The
report lists each number that was replaced together with the one that replaced it, so
the lists can be replayed: a change fits the state it is made in if the number it
claims to replace is there.

Nothing here depends on how bodies are reduced. A reduction may name a variable that
the model does not have or give numbers that are not finite, and the numbers implied
may then be NaN. What gets past the checks of a step is finite in any case, and it
replaces nothing that is as restrictive.

The steps are opened here for what they record, and only here. Each comes to a list of
changes, which may be empty, or to the switch of one constraint, and to nothing else; of
two steps in a row the lists are joined.

## Main definitions

* `Replays`: Changes lead from one state to another and fit on the way.
* `Side.Exceeds`: A number is strictly more restrictive than another one.
* `BoundUpdate.Fits`, `ValueRepair.Fits`: A recorded change fits a table of numbers.
* `Model.Updates`, `Model.Repairs`: Recorded changes lead from one model to another.
* `Run.FoldsTo`: The ends of folding a single whose bounds were imposed.
* `Run.withUpdates`, `Run.dropSingle`, `Run.withRepairs`: A run after recorded changes.

## Theorems

* `Side.tighter_of_ne`: What replaces a number is strictly more restrictive.
* `Run.tighten_updates`, `Run.impose_updates`: The changes of bounds that steps make.
* `Run.eq_dropSingle`: The switch that a deactivation makes.
* `Run.repair_repairs`: The change of a value that a repair makes.
* `Run.foldSingle_foldsTo`: All that folding a single does.
-/

namespace Presolve

open Scalar OrderedScalar

/-- Changes made one after the other lead from one state to another, and each of them
    fits the state in which it is made. -/
def Replays {S W : Type} (Fits : S → W → Prop) (make : S → W → S) : S → List W → S → Prop
  | s, [], s' => s = s'
  | s, w :: ws, s' => Fits s w ∧ Replays Fits make (make s w) ws s'

namespace Replays

variable {S W : Type} {Fits : S → W → Prop} {make : S → W → S} {s s' s'' : S} {w : W}
  {ws ws' : List W}

theorem nil (s : S) : Replays Fits make s [] s := rfl

theorem single (h : Fits s w) : Replays Fits make s [w] (make s w) := ⟨h, rfl⟩

theorem append (h : Replays Fits make s ws s') (h' : Replays Fits make s' ws' s'') :
    Replays Fits make s (ws ++ ws') s'' := by
  induction ws generalizing s with
  | nil => exact (show s = s' from h) ▸ h'
  | cons w rest ih => exact ⟨h.1, ih h.2⟩

/-- Changes of a state are changes of anything that can be read off it, if what is read
    off changes along with the state. -/
theorem map {S' : Type} {Fits' : S' → W → Prop} {make' : S' → W → S'} (view : S → S')
    (hfits : ∀ s w, Fits s w → Fits' (view s) w)
    (hmake : ∀ s w, view (make s w) = make' (view s) w) (h : Replays Fits make s ws s') :
    Replays Fits' make' (view s) ws (view s') := by
  induction ws generalizing s with
  | nil => exact congrArg view h
  | cons w rest ih => exact ⟨hfits s w h.1, hmake s w ▸ ih h.2⟩

/-- If each change of a state comes to several smaller changes of what is read off it,
    then all of them come to the smaller changes in a row. -/
theorem flatMap {S' W' : Type} {Fits' : S' → W' → Prop} {make' : S' → W' → S'} (view : S → S')
    (parts : W → List W')
    (hparts : ∀ s w, Fits s w → Replays Fits' make' (view s) (parts w) (view (make s w)))
    (h : Replays Fits make s ws s') :
    Replays Fits' make' (view s) (ws.flatMap parts) (view s') := by
  induction ws generalizing s with
  | nil => exact congrArg view h
  | cons w rest ih => exact (hparts s w h.1).append (ih h.2)

/-- What holds of each change that fits holds of all of them. -/
theorem forall_mem {P : W → Prop} (hfits : ∀ s w, Fits s w → P w) (h : Replays Fits make s ws s') :
    ∀ w ∈ ws, P w := by
  induction ws generalizing s with
  | nil => exact List.forall_mem_nil P
  | cons w rest ih => exact List.forall_mem_cons.mpr ⟨hfits s w h.1, ih h.2⟩

/-- What each change leaves alone is the same in the end. -/
theorem frame {B : Type} (view : S → B) (hmake : ∀ s w, view (make s w) = view s)
    (h : Replays Fits make s ws s') : view s' = view s := by
  induction ws generalizing s with
  | nil => exact congrArg view (show s = s' from h).symm
  | cons w rest ih => exact (ih h.2).trans (hmake s w)

/-- What each change adds to a list is added to it in their order. -/
theorem collect {B : Type} (view : S → List B) (parts : W → List B)
    (hmake : ∀ s w, view (make s w) = view s ++ parts w) (h : Replays Fits make s ws s') :
    view s' = view s ++ ws.flatMap parts := by
  induction ws generalizing s with
  | nil => exact (congrArg view (show s = s' from h).symm).trans (List.append_nil _).symm
  | cons w rest ih => rw [ih h.2, hmake, List.flatMap_cons, List.append_assoc]

end Replays

variable {α : Type}

/-- What is read off each variable. -/
def Model.column {B : Type} (m : Model α) (g : Variable α → B) : Array B := m.vars.map g

/-- The bounds of all variables. -/
abbrev Model.boundTable (m : Model α) : Array (Bounds α) := m.column Variable.bounds

/-- The values of all variables. -/
abbrev Model.valueTable (m : Model α) : Array (Option α) := m.column Variable.value

/-- The constraint and the side of its variable that a change of a bound belongs to. -/
def BoundUpdate.target (u : BoundUpdate α) : ConstraintId × Side := (u.constraint, u.side)

/-- The bounds of all variables after a recorded change. -/
def BoundUpdate.make (table : Array (Bounds α)) (u : BoundUpdate α) : Array (Bounds α) :=
  table.modify u.var.index (·.set u.side (some u.current))

/-- The values of all variables after a recorded change. -/
def ValueRepair.make (table : Array (Option α)) (w : ValueRepair α) : Array (Option α) :=
  table.modify w.var.index fun _ => some w.current

namespace Model

/-- The model after a recorded change of a bound. -/
def applyUpdate (m : Model α) (u : BoundUpdate α) : Model α :=
  m.modifyVariable u.var fun v => { v with bounds := v.bounds.set u.side (some u.current) }

/-- The model after a recorded change of a value. -/
def applyRepair (m : Model α) (w : ValueRepair α) : Model α :=
  m.modifyVariable w.var fun v => { v with value := some w.current }

/-- What each change leaves alone, all of them leave alone. -/
theorem foldl_frame {B W : Type} (view : Model α → B) (make : Model α → W → Model α)
    (h : ∀ m w, view (make m w) = view m) (m : Model α) (ws : List W) :
    view (ws.foldl make m) = view m := by
  induction ws generalizing m with
  | nil => rfl
  | cons w rest ih => exact (ih (make m w)).trans (h m w)

section Columns

variable {B : Type} {g : Variable α → B} {m : Model α} {var : VariableId}
  {f : Variable α → Variable α}

/-- What is read off the variables changes along with them. -/
theorem column_modifyVariable {f' : B → B} (h : ∀ v, g (f v) = f' (g v)) :
    (m.modifyVariable var f).column g = (m.column g).modify var.index f' := by
  refine Array.ext_getElem? fun i => ?_
  rw [column, column, Array.getElem?_map, vars_modifyVariable, Array.getElem?_modify,
    Array.getElem?_map]
  split
  · rw [Option.map_map, Option.map_map]
    exact congrArg (fun k => Option.map k m.vars[i]?) (funext h)
  · rfl

/-- What a change leaves alone is read off as before. -/
theorem column_modifyVariable_of_eq (h : ∀ v, g (f v) = g v) :
    (m.modifyVariable var f).column g = m.column g := by
  rw [column_modifyVariable (show ∀ v, g (f v) = id (g v) from h)]
  refine Array.ext_getElem? fun i => ?_
  rw [Array.getElem?_modify, Option.map_id, id_eq, ite_self]

/-- The entry of a variable that exists. -/
theorem column_variableAt {v : Variable α} (h : m.variableAt var = .ok v) :
    (m.column g)[var.index]? = some (g v) := by
  rw [column, Array.getElem?_map, variableAt_eq_ok.mp h, Option.map_some]

end Columns

theorem boundTable_applyUpdate (m : Model α) (u : BoundUpdate α) :
    (m.applyUpdate u).boundTable = BoundUpdate.make m.boundTable u :=
  column_modifyVariable fun _ => rfl

theorem valueTable_applyUpdate (m : Model α) (u : BoundUpdate α) :
    (m.applyUpdate u).valueTable = m.valueTable :=
  column_modifyVariable_of_eq fun _ => rfl

theorem boundTable_applyRepair (m : Model α) (w : ValueRepair α) :
    (m.applyRepair w).boundTable = m.boundTable :=
  column_modifyVariable_of_eq fun _ => rfl

theorem valueTable_applyRepair (m : Model α) (w : ValueRepair α) :
    (m.applyRepair w).valueTable = ValueRepair.make m.valueTable w :=
  column_modifyVariable fun _ => rfl

end Model

namespace Run

/-- A run after some bounds were changed, with the changes recorded. -/
def withUpdates (r : Run α) (us : List (BoundUpdate α)) : Run α where
  model := us.foldl Model.applyUpdate r.model
  report := { r.report with boundUpdates := r.report.boundUpdates ++ us }
  events := r.events ++ us.map fun u =>
    .boundTightened u.var (r.model.varNames.name? u.var) u.side u.previous u.current

/-- A run after some values were changed, with the changes recorded. -/
def withRepairs (r : Run α) (ws : List (ValueRepair α)) : Run α where
  model := ws.foldl Model.applyRepair r.model
  report := { r.report with valueRepairs := r.report.valueRepairs ++ ws }
  events := r.events ++ ws.map fun w =>
    .valueMoved w.var (r.model.varNames.name? w.var) w.previous w.current

theorem withUpdates_nil (r : Run α) : r.withUpdates [] = r := by
  simp only [withUpdates, List.foldl_nil, List.map_nil, List.append_nil]

theorem withRepairs_nil (r : Run α) : r.withRepairs [] = r := by
  simp only [withRepairs, List.foldl_nil, List.map_nil, List.append_nil]

theorem withUpdates_append (r : Run α) (us us' : List (BoundUpdate α)) :
    (r.withUpdates us).withUpdates us' = r.withUpdates (us ++ us') := by
  have hnames := Model.foldl_frame Model.varNames Model.applyUpdate (fun _ _ => rfl) r.model us
  simp only [withUpdates, hnames, List.foldl_append, List.map_append, List.append_assoc]

/-- The last state of a run, whether or not it was stopped there. -/
def last : Except (Stopped α) (Run α) → Run α
  | .ok r => r
  | .error stopped => stopped.run

end Run

variable [Scalar α]

/-- The targets of the two bounds of a constraint on a multiple by `k`, in the order in
    which they are imposed. -/
def BoundUpdate.targets (constraint : ConstraintId) (k : α) : List (ConstraintId × Side) :=
  [(constraint, Side.upper.scaled k), (constraint, Side.lower.scaled k)]

theorem BoundUpdate.nodup_targets (constraint : ConstraintId) (k : α) :
    (targets constraint k).Nodup := by
  rw [targets, show Side.lower.scaled k = (Side.upper.scaled k).flip from Side.scaled_flip .upper k,
    List.nodup_cons]
  refine ⟨fun hmem => ?_, List.nodup_cons.mpr ⟨List.not_mem_nil, List.nodup_nil⟩⟩
  have hsides := (Prod.mk.inj (List.mem_singleton.mp hmem)).2
  cases hside : Side.upper.scaled k <;> rw [hside] at hsides <;> cases hsides

theorem BoundUpdate.fst_of_mem_targets {constraint : ConstraintId} {k : α}
    {t : ConstraintId × Side} (h : t ∈ targets constraint k) : t.1 = constraint := by
  rcases List.mem_cons.mp h with rfl | h
  · rfl
  · rw [List.mem_singleton.mp h]

/-- Count a single that is about to be folded, if its coefficient is degenerate. -/
def Run.countSingle (p : Pass α) (r : Run α) (s : Single α) : Run α :=
  if p.isDegenerate s.coefficient then r.countDegenerate else r

@[simp] theorem Run.model_countSingle (p : Pass α) (r : Run α) (s : Single α) :
    (r.countSingle p s).model = r.model := by
  rw [countSingle]
  split <;> rfl

/-- A run after the constraint of a single was switched off, with this recorded. -/
def Run.dropSingle (p : Pass α) (r : Run α) (s : Single α) : Run α where
  model := r.model.modifyConstraint s.constraint fun c => { c with active := false }
  report := { r.report with deactivated := r.report.deactivated + 1 }
  events := r.events ++
    [.constraintDeactivated s.constraint (r.model.constraintNames.name? s.constraint) s.var
      (r.model.varNames.name? s.var) s.coefficient (p.isDegenerate s.coefficient)]

/-- A deactivation switches its constraint off and does nothing else. -/
theorem Run.eq_dropSingle {p : Pass α} {r done : Run α} {s : Single α}
    (h : r.deactivate s.constraint s.var s.coefficient (p.isDegenerate s.coefficient)
      = .ok done) : done = r.dropSingle p s := by
  unfold deactivate at h
  split at h
  · cases h
  · rename_i model hset
    rcases exists_of_bind_ok hset with ⟨c, -, hmodel⟩
    cases hmodel
    exact (Except.ok.inj h).symm

/-- As a bound on this side, `a` is strictly more restrictive than `b`. -/
def Side.Exceeds : Side → α → α → Prop
  | lower, a, b => b < a
  | upper, a, b => a < b

/-- The number to be replaced is there, and the new one is finite and strictly more
    restrictive. -/
structure BoundUpdate.Fits (table : Array (Bounds α)) (u : BoundUpdate α) : Prop where
  previous : (table[u.var.index]?).map (·.get u.side) = some u.previous
  exceeds : ∀ b ∈ u.previous, u.side.Exceeds u.current b
  finite : isFinite u.current = true

/-- The value to be replaced is there, and the new one is a number not equal to it. -/
structure ValueRepair.Fits (table : Array (Option α)) (w : ValueRepair α) : Prop where
  previous : table[w.var.index]? = some (some w.previous)
  changed : (w.current == w.previous) = false
  number : IsNumber w.current

namespace Model

/-- Changes of bounds lead from one model to another. -/
def Updates (m : Model α) (us : List (BoundUpdate α)) (m' : Model α) : Prop :=
  Replays (fun m u => u.Fits m.boundTable) applyUpdate m us m'

/-- Changes of values lead from one model to another. -/
def Repairs (m : Model α) (ws : List (ValueRepair α)) (m' : Model α) : Prop :=
  Replays (fun m w => w.Fits m.valueTable) applyRepair m ws m'

variable {m m' : Model α} {us : List (BoundUpdate α)} {ws : List (ValueRepair α)}

theorem Updates.boundTable (h : m.Updates us m') :
    Replays BoundUpdate.Fits BoundUpdate.make m.boundTable us m'.boundTable :=
  Replays.map Model.boundTable (fun _ _ hfits => hfits) boundTable_applyUpdate h

theorem Updates.valueTable (h : m.Updates us m') : m'.valueTable = m.valueTable :=
  Replays.frame Model.valueTable valueTable_applyUpdate h

theorem Repairs.valueTable (h : m.Repairs ws m') :
    Replays ValueRepair.Fits ValueRepair.make m.valueTable ws m'.valueTable :=
  Replays.map Model.valueTable (fun _ _ hfits => hfits) valueTable_applyRepair h

theorem Repairs.boundTable (h : m.Repairs ws m') : m'.boundTable = m.boundTable :=
  Replays.frame Model.boundTable boundTable_applyRepair h

end Model

/-- Repairing makes a change of a value or none. -/
theorem Run.repair_repairs {r r' : Run α} {var : VariableId} (h : r.repair var = .ok r') :
    ∃ ws, r' = r.withRepairs ws ∧ r.model.Repairs ws r'.model ∧
      (ws.map (·.var)).Sublist [var] := by
  have hnone : ∃ ws, r = r.withRepairs ws ∧ r.model.Repairs ws r.model ∧
      (ws.map (·.var)).Sublist [var] :=
    ⟨[], r.withRepairs_nil.symm, .nil r.model, List.nil_sublist _⟩
  unfold repair at h
  split at h
  · cases h
  · rename_i v hv
    split at h
    · exact Except.ok.inj h ▸ hnone
    · rename_i previous hprevious
      dsimp only at h
      split at h
      · exact Except.ok.inj h ▸ hnone
      · rename_i hmoved
        rw [Bool.not_eq_true] at hmoved
        unfold recordValue at h
        split at h
        · cases h
        · rename_i m' hset
          rcases Model.setValue_eq_ok hset with ⟨hnumber, -, rfl⟩
          cases h
          refine ⟨[⟨var, previous, v.bounds.clamp previous⟩], rfl, .single ?_, .refl _⟩
          refine ⟨?_, hmoved, hnumber _ rfl⟩
          rw [Model.column_variableAt hv, hprevious]

variable [OrderedScalar α]

/-- What replaces a number on a side is the other one and strictly more restrictive. -/
theorem Side.tighter_of_ne {s : Side} {b x : α} (hb : IsNumber b)
    (h : (b == s.tighter b x) = false) : s.tighter b x = x ∧ s.Exceeds x b := by
  cases s
  · simp only [tighter] at h ⊢
    split at h
    · rename_i hlt
      exact ⟨if_pos hlt, hlt⟩
    · rw [beq_self hb] at h
      cases h
  · simp only [tighter] at h ⊢
    split at h
    · rename_i hlt
      exact ⟨if_pos hlt, hlt⟩
    · rw [beq_self hb] at h
      cases h

namespace Run

variable {r r' : Run α} {constraint : ConstraintId} {var : VariableId} {side : Side}

/-- Tightening makes a change of a bound or none. -/
theorem tighten_updates (hsound : r.model.Sound) {x : α}
    (h : r.tighten constraint var side x = .ok r') :
    ∃ us, r' = r.withUpdates us ∧ r.model.Updates us r'.model ∧
      (us.map BoundUpdate.target).Sublist [(constraint, side)] ∧ ∀ u ∈ us, u.var = var := by
  have hnone : ∃ us, r = r.withUpdates us ∧ r.model.Updates us r.model ∧
      (us.map BoundUpdate.target).Sublist [(constraint, side)] ∧ ∀ u ∈ us, u.var = var :=
    ⟨[], r.withUpdates_nil.symm, .nil r.model, List.nil_sublist _, List.forall_mem_nil _⟩
  unfold tighten at h
  split at h
  · exact Except.ok.inj h ▸ hnone
  · rename_i hunbounding
    rw [Bool.not_eq_true] at hunbounding
    split at h
    · cases h
    · rename_i hfinite
      rw [Bool.not_eq_true, Bool.not_eq_false'] at hfinite
      split at h
      · cases h
      · rename_i v hv
        have hget := Model.variableAt_eq_ok.mp hv
        dsimp only at h
        split at h
        · exact Except.ok.inj h ▸ hnone
        · rename_i hsame
          rw [Bool.not_eq_true] at hsame
          -- A number that makes a difference is itself the bound afterwards.
          have hcurrent : (v.bounds.get side).elim x (side.tighter · x) = x ∧
              ∀ b ∈ v.bounds.get side, side.Exceeds x b := by
            cases hb : v.bounds.get side with
            | none => exact ⟨rfl, fun b hb => absurd hb (Option.not_mem_none b)⟩
            | some b =>
                rw [hb] at hsame
                have hnumber := (Bounds.hasNaN_iff _).mp (hsound.vars _ v hget).bounds side b hb
                rcases Side.tighter_of_ne hnumber hsame with ⟨heq, hexceeds⟩
                exact ⟨heq, fun a ha => Option.mem_some_iff.mp ha ▸ hexceeds⟩
          rw [hcurrent.1, recordBound,
            Model.setBound_ok hv (isNumber_of_finite hfinite) hunbounding] at h
          cases h
          refine ⟨[⟨constraint, var, side, v.bounds.get side, x⟩], rfl, .single ?_, .refl _,
            List.forall_mem_singleton.mpr rfl⟩
          refine ⟨?_, hcurrent.2, hfinite⟩
          rw [Model.column_variableAt hv, Option.map_some]

theorem tightenImplied_updates (hsound : r.model.Sound) {k c : α} {bounds : Bounds α}
    (h : r.tightenImplied constraint var k c side bounds = .ok r') :
    ∃ us, r' = r.withUpdates us ∧ r.model.Updates us r'.model ∧
      (us.map BoundUpdate.target).Sublist [(constraint, side.scaled k)] ∧
      ∀ u ∈ us, u.var = var := by
  unfold tightenImplied at h
  split at h
  · cases h
    exact ⟨[], r.withUpdates_nil.symm, .nil r.model, List.nil_sublist _, List.forall_mem_nil _⟩
  · exact tighten_updates hsound h

/-- Imposing bounds makes at most one change for each side of the variable, whether or not it
    comes to its end. -/
theorem impose_updates (hsound : r.model.Sound) (constraint : ConstraintId) (var : VariableId)
    (k c : α) (bounds : Bounds α) :
    ∃ us, last (r.impose constraint var k c bounds) = r.withUpdates us ∧
      r.model.Updates us (r.withUpdates us).model ∧
      (us.map BoundUpdate.target).Sublist (BoundUpdate.targets constraint k) ∧
      ∀ u ∈ us, u.var = var := by
  unfold impose
  split
  · refine ⟨[], r.withUpdates_nil.symm, ?_, List.nil_sublist _, List.forall_mem_nil _⟩
    exact .nil r.model
  · rename_i half hhalf
    rcases tightenImplied_updates hsound hhalf with ⟨us, rfl, hus, htargets, hvar⟩
    split
    · exact ⟨us, rfl, hus, htargets.trans (List.sublist_append_left [_] [_]), hvar⟩
    · rename_i both hboth
      -- The second side meets the model as the first one has left it.
      have hsound' := hsound.changes (tightenImplied_changes hhalf)
      rcases tightenImplied_updates hsound' hboth with ⟨us', rfl, hus', htargets', hvar'⟩
      refine ⟨us ++ us', withUpdates_append r us us', ?_, ?_,
        List.forall_mem_append.mpr ⟨hvar, hvar'⟩⟩
      · rw [← withUpdates_append]
        exact hus.append hus'
      · rw [List.map_append]
        exact htargets.append htargets'

/-- The bounds of a single are imposed, or passed over if its coefficient is
    degenerate. -/
theorem imposed_updates (hsound : r.model.Sound) (p : Pass α) (s : Single α) :
    ∃ us, last (if p.isDegenerate s.coefficient then .ok r.countDegenerate
        else r.impose s.constraint s.var s.coefficient s.constant s.bounds)
          = (r.countSingle p s).withUpdates us ∧
      r.model.Updates us ((r.countSingle p s).withUpdates us).model ∧
      (us.map BoundUpdate.target).Sublist (BoundUpdate.targets s.constraint s.coefficient) ∧
      ∀ u ∈ us, u.var = s.var := by
  rw [countSingle]
  split
  · refine ⟨[], (withUpdates_nil _).symm, ?_, List.nil_sublist _, List.forall_mem_nil _⟩
    exact .nil r.model
  · exact impose_updates hsound s.constraint s.var s.coefficient s.constant s.bounds

/-- The ends of folding a single whose bounds were imposed as far as they can be. -/
inductive FoldsTo (p : Pass α) (bounded : Run α) (s : Single α) :
    Except (Stopped α) (Run α) → Prop
  /-- The run is stopped before the constraint is switched off. -/
  | kept (reason : FoldError α) : FoldsTo p bounded s (.error ⟨reason, bounded⟩)
  /-- The run is stopped once the constraint is switched off. -/
  | dropped (reason : FoldError α) :
      FoldsTo p bounded s (.error ⟨reason, bounded.dropSingle p s⟩)
  /-- The constraint is switched off, and the value of the variable is moved at most once. -/
  | repaired (ws : List (ValueRepair α))
      (hws : (bounded.dropSingle p s).model.Repairs ws
        ((bounded.dropSingle p s).withRepairs ws).model)
      (hmoved : (ws.map (·.var)).Sublist [s.var]) :
      FoldsTo p bounded s (.ok ((bounded.dropSingle p s).withRepairs ws))

/-- Folding a single makes some changes of bounds and comes to one of the ends. -/
theorem foldSingle_foldsTo (hsound : r.model.Sound) (p : Pass α) (s : Single α) :
    ∃ us, r.model.Updates us ((r.countSingle p s).withUpdates us).model ∧
      (us.map BoundUpdate.target).Sublist (BoundUpdate.targets s.constraint s.coefficient) ∧
      (∀ u ∈ us, u.var = s.var) ∧
      FoldsTo p ((r.countSingle p s).withUpdates us) s
        (r.foldSingle p s.constraint s.var s.coefficient s.constant s.bounds) := by
  rcases imposed_updates hsound p s with ⟨us, hlast, hus, htargets, hvar⟩
  refine ⟨us, hus, htargets, hvar, ?_⟩
  rw [foldSingle]
  split
  · rename_i stopped hstopped
    rw [hstopped] at hlast
    rw [← show stopped.run = _ from hlast]
    exact .kept stopped.reason
  · rename_i bounded hbounded
    rw [hbounded] at hlast
    rw [← show bounded = _ from hlast]
    split
    · exact .kept _
    · rename_i done hdone
      rcases eq_dropSingle hdone with rfl
      split
      · exact .dropped _
      · rename_i repaired hrepaired
        rcases repair_repairs hrepaired with ⟨ws, rfl, hws, hmoved⟩
        exact .repaired ws hws hmoved

end Run

end Presolve
