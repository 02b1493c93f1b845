import Mathlib.Data.List.Basic
import Mathlib.Data.List.Induction
import Presolve.Proofs.Model.Change

/-!
# Variables of a Polynomial

Which variables a polynomial lists, and in what order. They are found by reading the terms
once, linear ones first, then those with two factors and those with three. Each factor is put
at the end of a list unless it is there already. So the list has every factor once, and a
variable comes before another one if it occurs for the first time before the other one does.

A new constraint is checked against this list and nothing else. A factor that is not in it
could be a variable that does not exist, and neither the other operations nor a run would
notice before they look the variable up. And as the check goes through the list in order, the
variable named by a refusal is the missing one that is written first.

## Main definitions

* `Poly.HasFactor`: A variable is a factor of a term.
* `addUnseen`: Put a variable at the end of a list unless it is there.
* `Poly.readVars`: The list that grows while the terms are read.
* `FirstSeen`: Each variable once, in the order in which they occur first.

## Theorems

* `FirstSeen.addUnseen`: One more variable is read.
* `FirstSeen.foldl_addUnseen`: Any number of them are read.
* `Poly.vars_eq`: The variables of a polynomial are those that were read.
* `Model.missing?_eq_some_iff`: The search for a missing variable finds the first one.
* `Poly.vars_in_order`: The list, and what a new constraint is checked for.
-/

namespace Presolve

/-- A variable is put at the end of a list unless it is there already. -/
def addUnseen (seen : List VariableId) (v : VariableId) : List VariableId :=
  if v ∈ seen then seen else seen ++ [v]

/-- Some variables have been read, and these are they, each once and in the order in which
    they occurred first. -/
structure FirstSeen (read seen : List VariableId) : Prop where
  mem_iff : ∀ v, v ∈ seen ↔ v ∈ read
  ordered : seen.Pairwise fun v w => read.idxOf v < read.idxOf w

namespace FirstSeen

variable {read seen : List VariableId}

theorem nodup (h : FirstSeen read seen) : seen.Nodup :=
  h.ordered.imp fun hlt heq => absurd (heq ▸ hlt) (Nat.lt_irrefl _)

/-- What was read before occurs first where it did, and what is new occurs at the end. -/
theorem addUnseen (h : FirstSeen read seen) (v : VariableId) :
    FirstSeen (read ++ [v]) (addUnseen seen v) := by
  have hkept : seen.Pairwise fun u w => (read ++ [v]).idxOf u < (read ++ [v]).idxOf w := by
    refine h.ordered.imp_of_mem fun {u w} hu hw hlt => ?_
    rwa [List.idxOf_append_of_mem ((h.mem_iff u).mp hu),
      List.idxOf_append_of_mem ((h.mem_iff w).mp hw)]
  rw [Presolve.addUnseen]
  by_cases hv : v ∈ seen
  · rw [if_pos hv]
    refine ⟨fun w => ?_, hkept⟩
    rw [h.mem_iff, List.mem_append, List.mem_singleton]
    exact ⟨Or.inl, fun hw => hw.elim id fun heq => heq ▸ (h.mem_iff v).mp hv⟩
  · rw [if_neg hv]
    refine ⟨fun w => by rw [List.mem_append, List.mem_append, h.mem_iff], ?_⟩
    refine List.pairwise_append.mpr ⟨hkept, List.pairwise_singleton _ _, fun u hu w hw => ?_⟩
    rw [List.mem_singleton.mp hw, List.idxOf_append_of_mem ((h.mem_iff u).mp hu),
      List.idxOf_append_of_notMem (mt (h.mem_iff v).mpr hv)]
    exact (List.idxOf_lt_length_of_mem ((h.mem_iff u).mp hu)).trans_le (Nat.le_add_right _ _)

/-- A run of the loop, from whatever was read before. -/
theorem foldl_addUnseen (h : FirstSeen read seen) (vs : List VariableId) :
    FirstSeen (read ++ vs) (vs.foldl Presolve.addUnseen seen) := by
  induction vs generalizing read seen with
  | nil => rwa [List.append_nil]
  | cons v rest ih =>
      rw [List.append_cons]
      exact ih (h.addUnseen v)

end FirstSeen

/-- Putting variables at the end one by one comes to erasing repetitions. -/
theorem foldl_addUnseen_eq (vs : List VariableId) : vs.foldl addUnseen [] = vs.eraseDups := by
  -- The variable read last is the one that the loop decides about last.
  induction vs using List.reverseRecOn with
  | nil => rfl
  | append_singleton rest v ih =>
      rw [List.foldl_append, ih, List.foldl_cons, List.foldl_nil, addUnseen, List.eraseDups_append]
      by_cases hv : v ∈ rest
      · rw [if_pos (List.mem_eraseDups.mpr hv), List.removeAll,
          List.filter_cons_of_neg (by simpa using hv)]
        exact (List.append_nil _).symm
      · rw [if_neg (mt List.mem_eraseDups.mp hv), List.removeAll,
          List.filter_cons_of_pos (by simpa using hv)]
        rfl

variable {α : Type}

/-- The list after the factors of a term were read from left to right. -/
def Monomial.read {n : Nat} (seen : List VariableId) (t : Monomial α n) : List VariableId :=
  t.factors.toList.foldl addUnseen seen

namespace Poly

/-- The variable is a factor of a stored term, whatever the coefficient. -/
def HasFactor (p : Poly α) (v : VariableId) : Prop :=
  (∃ t ∈ p.linear, v ∈ t.factors.toList) ∨ (∃ t ∈ p.quadratic, v ∈ t.factors.toList) ∨
    ∃ t ∈ p.cubic, v ∈ t.factors.toList

/-- The list after all terms were read, those with fewer factors first. -/
def readVars (p : Poly α) : List VariableId :=
  p.cubic.foldl Monomial.read (p.quadratic.foldl Monomial.read (p.linear.foldl Monomial.read []))

variable {p : Poly α}

theorem mem_occurrences_iff {v : VariableId} : v ∈ p.occurrences ↔ p.HasFactor v := by
  simp only [occurrences, HasFactor, List.mem_append, List.mem_flatMap, or_assoc]

theorem readVars_eq (p : Poly α) : p.readVars = p.occurrences.foldl addUnseen [] := by
  rw [occurrences, List.foldl_append, List.foldl_append, List.foldl_flatMap, List.foldl_flatMap,
    List.foldl_flatMap]
  rfl

/-- The variables of a polynomial are those that were read. -/
theorem vars_eq (p : Poly α) : p.vars = p.readVars := by
  rw [readVars_eq, foldl_addUnseen_eq, vars]

theorem firstSeen_vars (p : Poly α) : FirstSeen p.occurrences p.vars := by
  have hempty : FirstSeen [] [] := ⟨fun _ => Iff.rfl, .nil⟩
  rw [vars_eq, readVars_eq]
  exact hempty.foldl_addUnseen p.occurrences

end Poly

namespace Model

variable {m : Model α}

theorem exists_variableAt_iff {id : VariableId} :
    (∃ v, m.variableAt id = .ok v) ↔ id.index < m.vars.size := by
  simp only [variableAt_eq_ok]
  constructor
  · rintro ⟨v, hv⟩
    exact (Array.getElem?_eq_some_iff.mp hv).1
  · intro hlt
    exact ⟨_, Array.getElem?_eq_getElem hlt⟩

/-- The search for a missing variable passes those that exist. -/
theorem missing?_eq_some_iff {ids : List VariableId} {id : VariableId} :
    m.missing? ids = some id ↔ (¬ ∃ v, m.variableAt id = .ok v) ∧
      ∃ before after, ids = before ++ id :: after ∧ ∀ w ∈ before, ∃ v, m.variableAt w = .ok v := by
  simp only [missing?, List.find?_eq_some_iff_append, exists_variableAt_iff, decide_eq_true_eq,
    Bool.not_eq_true', decide_eq_false_iff_not, Nat.not_le, Nat.not_lt]

variable [Scalar α]

/-- With a block that exists and bounds that are in order, a constraint is refused if a variable
    is missing. -/
theorem addConstraintTo_eq_error {block : BlockId} {b : Block} (hb : m.blockAt block = .ok b)
    {r : Ranged α} (hnan : r.bounds.hasNaN = false) (hordered : r.bounds.crossed = false)
    {id : VariableId} (h : m.missing? r.body.vars = some id) :
    m.addConstraintTo block r = .error (.unknownVariable id) := by
  have hbounds : ¬ (r.bounds.hasNaN || r.bounds.crossed) = true := by
    rw [hnan, hordered]
    exact Bool.false_ne_true
  rw [addConstraintTo, hb]
  change (if (r.bounds.hasNaN || r.bounds.crossed) = true then _ else _) = _
  rw [if_neg hbounds, h]

end Model

namespace Poly

variable [Scalar α]

/-- The variables of a polynomial are the factors of its terms, without repetitions, and in the
    order of their first occurrence when the terms are read from left to right, degree by degree.
    A constraint on the polynomial is accepted into a block that exists, with bounds that are in
    order, if and only if all factors exist. Otherwise the first of the variables that does not
    exist is named. -/
theorem vars_in_order (p : Poly α) :
    (∀ v, v ∈ p.vars ↔ p.HasFactor v) ∧ p.vars.Nodup ∧
      (p.vars.Pairwise fun v w => p.occurrences.idxOf v < p.occurrences.idxOf w) ∧
      ∀ (m : Model α) (block : BlockId) (b : Block) (bounds : Bounds α),
        m.blockAt block = .ok b → bounds.hasNaN = false → bounds.crossed = false →
        ((∃ x, m.addConstraintTo block ⟨p, bounds⟩ = .ok x) ↔
          ∀ v, p.HasFactor v → ∃ entry, m.variableAt v = .ok entry) ∧
        ((¬ ∀ v, p.HasFactor v → ∃ entry, m.variableAt v = .ok entry) →
          ∃ before v after, p.vars = before ++ v :: after ∧
            (∀ w ∈ before, ∃ entry, m.variableAt w = .ok entry) ∧
            (¬ ∃ entry, m.variableAt v = .ok entry) ∧
            m.addConstraintTo block ⟨p, bounds⟩ = .error (.unknownVariable v)) := by
  have hseen := p.firstSeen_vars
  have hmem (v : VariableId) : v ∈ p.vars ↔ p.HasFactor v := by
    rw [hseen.mem_iff, mem_occurrences_iff]
  refine ⟨hmem, hseen.nodup, hseen.ordered, fun m block b bounds hb hnan hordered => ?_⟩
  constructor
  · simp only [Model.addConstraintTo_eq_ok, mem_occurrences_iff, Model.exists_variableAt_iff]
    constructor
    · rintro ⟨x, -, -, -, hvars, -⟩
      exact hvars
    · intro hvars
      exact ⟨_, ⟨b, hb⟩, hnan, hordered, hvars, rfl⟩
  · intro hmissing
    cases hfirst : m.missing? p.vars with
    | none =>
        -- Then no factor would be missing.
        rw [Model.missing?_eq_none] at hfirst
        refine absurd (fun v hv => ?_) hmissing
        exact Model.exists_variableAt_iff.mpr (hfirst v ((hmem v).mpr hv))
    | some v =>
        rcases Model.missing?_eq_some_iff.mp hfirst with ⟨hv, before, after, heq, hbefore⟩
        exact ⟨before, v, after, heq, hbefore, hv,
          Model.addConstraintTo_eq_error (r := ⟨p, bounds⟩) hb hnan hordered hfirst⟩

/-- The variable `4` is the second factor of a product with the coefficient zero, and `3` the last
    factor of another product. Both are missing from a model with two variables, which names the
    one that is written first. A model with five variables has them all. -/
theorem vars_in_order_missing :
    ∃ (p : Poly Float) (small large : Model Float),
      p = ⟨1, [⟨#v[⟨1⟩], 0⟩], [⟨#v[⟨0⟩, ⟨4⟩], 0⟩, ⟨#v[⟨1⟩, ⟨0⟩], 5⟩], [⟨#v[⟨4⟩, ⟨1⟩, ⟨3⟩], 2⟩]⟩ ∧
      small = Model.empty.after (.replicate 2 (.addVariable {})) ∧
      large = Model.empty.after (.replicate 5 (.addVariable {})) ∧
      p.vars = [⟨1⟩, ⟨0⟩, ⟨4⟩, ⟨3⟩] ∧ p.vars.Nodup ∧ p.HasFactor ⟨4⟩ ∧ ¬ p.HasFactor ⟨2⟩ ∧
      (∃ before after, p.vars = before ++ ⟨4⟩ :: after ∧
        ∀ w ∈ before, ∃ entry, small.variableAt w = .ok entry) ∧
      small.addConstraintTo rootBlock ⟨p, ⟨none, some 3⟩⟩ = .error (.unknownVariable ⟨4⟩) ∧
      ∃ x, large.addConstraintTo rootBlock ⟨p, ⟨none, some 3⟩⟩ = .ok x := by
  set p : Poly Float :=
    ⟨1, [⟨#v[⟨1⟩], 0⟩], [⟨#v[⟨0⟩, ⟨4⟩], 0⟩, ⟨#v[⟨1⟩, ⟨0⟩], 5⟩], [⟨#v[⟨4⟩, ⟨1⟩, ⟨3⟩], 2⟩]⟩
  set small : Model Float := Model.empty.after (.replicate 2 (.addVariable {}))
  set large : Model Float := Model.empty.after (.replicate 5 (.addVariable {}))
  rcases vars_in_order p with ⟨hmem, hnodup, -, hchecked⟩
  have hvars : p.vars = [⟨1⟩, ⟨0⟩, ⟨4⟩, ⟨3⟩] := by decide
  have hfour : p.HasFactor ⟨4⟩ := (hmem ⟨4⟩).mp (by rw [hvars]; decide)
  have htwo : ¬ p.HasFactor ⟨2⟩ := fun h => absurd ((hmem ⟨2⟩).mpr h) (by rw [hvars]; decide)
  have hrefused := (hchecked small rootBlock _ ⟨none, some 3⟩ rfl rfl rfl).2 fun hall => by
    rcases hall ⟨4⟩ hfour with ⟨entry, hentry⟩
    cases hentry
  have haccepted := (hchecked large rootBlock _ ⟨none, some 3⟩ rfl rfl rfl).1.mpr fun v hv => by
    rw [← hmem, hvars] at hv
    simp only [List.mem_cons, List.not_mem_nil, or_false] at hv
    rcases hv with rfl | rfl | rfl | rfl <;> exact ⟨_, rfl⟩
  have herror : small.addConstraintTo rootBlock ⟨p, ⟨none, some 3⟩⟩
      = .error (.unknownVariable ⟨4⟩) := by rfl
  rcases hrefused with ⟨before, v, after, heq, hbefore, -, hfirst⟩
  rw [herror] at hfirst
  cases hfirst
  exact ⟨p, small, large, rfl, rfl, rfl, hvars, hnodup, hfour, htwo, ⟨before, after, heq, hbefore⟩,
    herror, haccepted⟩

end Poly

end Presolve
