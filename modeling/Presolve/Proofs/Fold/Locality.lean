import Presolve.Proofs.Fold.Failure
import Presolve.Proofs.Poly.Variables

/-!
# What a Reduction Reads

A reduction asks of a model which variables are fixed, and at which numbers. It asks this of the
factors of the terms and of no other variables, so two models give a polynomial the same
reduction if they fix its variables alike. They may differ in everything else, and that is in
bounds, in the values of variables that are not fixed, in constraints, blocks, switches and
names.

A run changes bounds, values and switches, and that it leaves reductions alone does not follow
from this. It moves the value of the variable of a single, and a value is what a fixed variable
stands for. But such a variable is one that a reduction has left over, so it is not fixed. The
bodies therefore reduce to the same after any number of visits, the last of which may have
failed, and it makes no difference to a constraint when it is met.

## Main definitions

* `Model.isFixed`: A variable exists and is fixed.
* `Model.FixesAlike`: A variable is fixed in both of two models, at one number, or in neither.
* `Poly.parts?`: The two parts of the form that a polynomial reduces to.

## Theorems

* `Monomial.contribution_congr`: What a term adds depends on its factors.
* `Poly.reduce_congr`: A reduction depends on the variables of the polynomial.
* `Model.FixesAlike.fixedValue_eq`: Models that fix a variable alike answer alike.
* `Pass.sound_rereads_visitAll`: Visits change no finding, whether or not they succeed.
* `Poly.reduce_local`: What a reduction reads, and what a run leaves of it.
-/

namespace Presolve

variable {α : Type}

/-- What is read off a result is read off what was computed. -/
theorem exists_ok_of_map {ε β γ : Type} {result : Except ε β} {read : β → γ} {c : γ}
    (h : result.toOption.map read = some c) : ∃ b, result = .ok b ∧ read b = c := by
  cases result with
  | error e => cases h
  | ok b => exact ⟨b, rfl, Option.some.inj h⟩

section Congruence

variable [Scalar α] {fixed fixed' : FixedValues α}

namespace Monomial

variable {n : Nat} {t : Monomial α n}

theorem folded_congr (h : ∀ v ∈ t.factors.toList, fixed v = fixed' v) :
    t.folded fixed = t.folded fixed' := by
  rw [folded, folded, List.filterMap_congr h]

/-- The numbers put in and the unknowns left over are those of the factors. -/
theorem contribution_congr (h : ∀ v ∈ t.factors.toList, fixed v = fixed' v) :
    t.contribution fixed = t.contribution fixed' := by
  have hunknowns : t.unknowns fixed = t.unknowns fixed' :=
    List.filter_congr fun v hv => congrArg Option.isNone (h v hv)
  rw [contribution, contribution, hunknowns, folded_congr h]

/-- Which products are left out depends on the factors as well. -/
theorem productContributions_congr {ts : List (Monomial α n)}
    (h : ∀ t ∈ ts, ∀ v ∈ t.factors.toList, fixed v = fixed' v) :
    productContributions fixed ts = productContributions fixed' ts := by
  have hkept : ts.filter (fun t => !t.folded fixed == 0)
      = ts.filter fun t => !t.folded fixed' == 0 :=
    List.filter_congr fun t ht => by rw [folded_congr (h t ht)]
  rw [productContributions, productContributions, hkept]
  exact List.map_congr_left fun t ht => contribution_congr (h t (List.mem_of_mem_filter ht))

end Monomial

namespace Poly

variable {p : Poly α}

theorem contributions_congr (h : ∀ v, p.HasFactor v → fixed v = fixed' v) :
    p.contributions fixed = p.contributions fixed' := by
  have hlinear : p.linear.map (Monomial.contribution fixed)
      = p.linear.map (Monomial.contribution fixed') := by
    refine List.map_congr_left fun t ht => Monomial.contribution_congr fun v hv => ?_
    exact h v (Or.inl ⟨t, ht, hv⟩)
  have hquadratic : Monomial.productContributions fixed p.quadratic
      = Monomial.productContributions fixed' p.quadratic :=
    Monomial.productContributions_congr fun t ht v hv => h v (Or.inr (Or.inl ⟨t, ht, hv⟩))
  have hcubic : Monomial.productContributions fixed p.cubic
      = Monomial.productContributions fixed' p.cubic :=
    Monomial.productContributions_congr fun t ht v hv => h v (Or.inr (Or.inr ⟨t, ht, hv⟩))
  rw [contributions, contributions, hlinear, hquadratic, hcubic]

/-- A reduction asks for the variables of the polynomial and for no others. -/
theorem reduce_congr (h : ∀ v ∈ p.vars, fixed v = fixed' v) : p.reduce fixed = p.reduce fixed' := by
  rw [reduce, reduce, contributions_congr fun v hv =>
    h v (List.mem_eraseDups.mpr (mem_occurrences_iff.mpr hv))]

/-- The constant and the terms of the form that a polynomial reduces to, if there is one. -/
def parts? (p : Poly α) (fixed : FixedValues α) : Option (α × List (VariableId × α)) :=
  ((p.reduce fixed).toOption.bind Reduced.form?).map fun form => (form.constant, form.terms)

theorem reduce_of_parts {k : α} {terms : List (VariableId × α)}
    (h : p.parts? fixed = some (k, terms)) : p.reduce fixed = .ok (.linear ⟨k, terms⟩) := by
  rw [parts?] at h
  rcases hreduce : p.reduce fixed with e | form | degree <;> rw [hreduce] at h
  · cases h
  · cases h
    rfl
  · cases h

end Poly

end Congruence

namespace Model

/-- A variable exists and is fixed. -/
def isFixed (m : Model α) (id : VariableId) : Bool := m.vars[id.index]?.any (·.fixed)

/-- A variable is fixed in both models or in neither, and if it is, it has one value. -/
structure FixesAlike (m m' : Model α) (id : VariableId) : Prop where
  flag : m.isFixed id = m'.isFixed id
  value : m.isFixed id = true →
    (m.vars[id.index]?).bind (·.value) = (m'.vars[id.index]?).bind (·.value)

theorem fixedValue_eq (m : Model α) (id : VariableId) :
    m.fixedValue id = if m.isFixed id then (m.vars[id.index]?).bind (·.value) else none := by
  rw [fixedValue, isFixed]
  cases m.vars[id.index]? with
  | none => rfl
  | some v =>
      rw [Option.filter_some, Option.any_some]
      cases v.fixed <;> rfl

/-- The number at which a variable is fixed is the same in models that fix it alike. -/
theorem FixesAlike.fixedValue_eq {m m' : Model α} {id : VariableId} (h : m.FixesAlike m' id) :
    m.fixedValue id = m'.fixedValue id := by
  rw [Model.fixedValue_eq, Model.fixedValue_eq, ← h.flag]
  by_cases hfixed : m.isFixed id = true
  · rw [if_pos hfixed, if_pos hfixed, h.value hfixed]
  · rw [if_neg hfixed, if_neg hfixed]

/-- A constraint that existed still does, with the body and the bounds it had. -/
theorem Rereads.constraintAt {m m' : Model α} (h : m'.Rereads m) {id : ConstraintId}
    {c : Constraint α} (hc : m.constraintAt id = .ok c) :
    ∃ c', m'.constraintAt id = .ok c' ∧ c'.toRanged = c.toRanged := by
  have hranged := h.ranged id.index
  rw [constraintAt_eq_ok.mp hc, Option.map_some, Option.map_eq_some_iff] at hranged
  rcases hranged with ⟨c', hc', heq⟩
  exact ⟨c', constraintAt_eq_ok.mpr hc', heq⟩

end Model

section Runs

variable [Scalar α] [MonotoneScalar α]

/-- Visits leave a sound model in which a pass finds what it found before, also if the last one of
    them fails. -/
theorem Pass.sound_rereads_visitAll {p : Pass α} (hp : p.reduce = Poly.reduce) {r : Run α}
    (hm : r.model.Sound) (ids : List ConstraintId) :
    (Run.modelOf (p.visitAll r ids)).Sound ∧ (Run.modelOf (p.visitAll r ids)).Rereads r.model := by
  cases h : p.visitAll r ids with
  | ok r' => exact sound_rereads_of_visitAll hp hm h
  | error stopped =>
      -- The visit that failed has changed nothing, so it is about the visits before.
      rcases visitAll_eq_error h with ⟨done, id, rest, before, -, hdone, hvisit⟩
      rcases sound_rereads_of_visitAll hp hm hdone with ⟨hsound, hreread⟩
      rw [Run.modelOf, Run.model_of_visit_error hp hsound hvisit]
      exact ⟨hsound, hreread⟩

namespace Poly

/-- A reduction depends on the numbers at which the variables of the polynomial are fixed, and on
    nothing else. Two models that fix these variables alike give it the same result. If it is the
    body of a constraint, then a run may visit any constraints, with or without success, and the
    body reduces afterwards to what it was reduced to before. -/
theorem reduce_local (body : Poly α) :
    (∀ fixed fixed' : FixedValues α, (∀ v ∈ body.vars, fixed v = fixed' v) →
        body.reduce fixed = body.reduce fixed') ∧
      (∀ m m' : Model α, (∀ v ∈ body.vars, m.FixesAlike m' v) →
        body.reduce m.fixedValue = body.reduce m'.fixedValue) ∧
      ∀ (p : Pass α) (m : Model α) (id : ConstraintId) (c : Constraint α),
        p.reduce = Poly.reduce → m.Reachable → m.constraintAt id = .ok c → c.body = body →
        ∀ done : List ConstraintId,
          ∃ c', (Run.modelOf (p.visitAll { model := m } done)).constraintAt id = .ok c' ∧
            c'.body = body ∧
            c'.body.reduce (Run.modelOf (p.visitAll { model := m } done)).fixedValue
              = body.reduce m.fixedValue := by
  refine ⟨fun fixed fixed' h => reduce_congr h, fun m m' h => ?_, ?_⟩
  · exact reduce_congr fun v hv => (h v hv).fixedValue_eq
  · intro p m id c hp hm hc hbody done
    have hreread := (Pass.sound_rereads_visitAll (r := { model := m }) hp hm.sound done).2
    rcases hreread.constraintAt hc with ⟨c', hc', hranged⟩
    have hbody' : c'.body = body := (congrArg Ranged.body hranged).trans hbody
    refine ⟨c', hc', hbody', ?_⟩
    rw [hbody', hreread.fixed]

/-- Two models have in common that `y` is fixed at `2`, `z` at `0.1`, and `x` not at all. In both
    of them the body of the last constraint of the second one comes to `4.1 * x + 0.5`. A run of
    the second one tightens `x` by `2 * y * x ≤ 6`, moves its value, and fails at
    `10⁻⁷ * x ≥ 10³⁰⁴`, which makes no difference to the body. -/
theorem reduce_local_failed :
    ∃ (m m' stopped : Model Float) (c c' : Constraint Float),
      m = (Model.empty : Model Float).after
        [.addVariable { bounds := ⟨some 1, some 4⟩, value := some 3 },
          .addVariable { bounds := ⟨none, some 1⟩ },
          .addVariable { value := some 0.1, fixed := true },
          .addBlock rootBlock "plant", .fix ⟨1⟩ 2, .nameVariable ⟨0⟩ "x"] ∧
      m' = (Model.empty : Model Float).after [.addVariable { value := some 8 },
        .addVariable { value := some 2, fixed := true },
        .addVariable { value := some 0.1, fixed := true },
        .addConstraintTo rootBlock (.product ⟨1⟩ ⟨0⟩ 2) ⟨none, some 6⟩,
        .addConstraintTo rootBlock (.term ⟨0⟩ 1e-7) ⟨some 1e304, none⟩,
        .addConstraintTo rootBlock ⟨0.5, [⟨#v[⟨0⟩], 1.5⟩], [⟨#v[⟨1⟩, ⟨0⟩], 0.25⟩],
          [⟨#v[⟨1⟩, ⟨0⟩, ⟨2⟩], 10.5⟩]⟩ ⟨none, some 9⟩] ∧
      (Pass.standard.visitAll { model := m' } [⟨0⟩, ⟨1⟩]).isOk = false ∧
      stopped = Run.modelOf (Pass.standard.visitAll { model := m' } [⟨0⟩, ⟨1⟩]) ∧
      stopped.vars[0]?.map (·.value) = some (some 1.5) ∧
      m'.constraintAt ⟨2⟩ = .ok c ∧ stopped.constraintAt ⟨2⟩ = .ok c' ∧
      (∀ v ∈ c.body.vars, m.FixesAlike m' v) ∧
      c.body.reduce m.fixedValue = .ok (.linear ⟨0.5, [(⟨0⟩, 4.1)]⟩) ∧
      c.body.reduce m'.fixedValue = .ok (.linear ⟨0.5, [(⟨0⟩, 4.1)]⟩) ∧
      c'.body.reduce stopped.fixedValue = .ok (.linear ⟨0.5, [(⟨0⟩, 4.1)]⟩) := by
  set m : Model Float := Model.empty.after
    [.addVariable { bounds := ⟨some 1, some 4⟩, value := some 3 },
      .addVariable { bounds := ⟨none, some 1⟩ }, .addVariable { value := some 0.1, fixed := true },
      .addBlock rootBlock "plant", .fix ⟨1⟩ 2, .nameVariable ⟨0⟩ "x"]
  set m' : Model Float := Model.empty.after [.addVariable { value := some 8 },
    .addVariable { value := some 2, fixed := true },
    .addVariable { value := some 0.1, fixed := true },
    .addConstraintTo rootBlock (.product ⟨1⟩ ⟨0⟩ 2) ⟨none, some 6⟩,
    .addConstraintTo rootBlock (.term ⟨0⟩ 1e-7) ⟨some 1e304, none⟩,
    .addConstraintTo rootBlock ⟨0.5, [⟨#v[⟨0⟩], 1.5⟩], [⟨#v[⟨1⟩, ⟨0⟩], 0.25⟩],
      [⟨#v[⟨1⟩, ⟨0⟩, ⟨2⟩], 10.5⟩]⟩ ⟨none, some 9⟩] with hm
  have hread : (m'.constraintAt ⟨2⟩).toOption.map (fun c =>
      (c.body.vars, c.body.parts? m'.fixedValue))
        = some ([⟨0⟩, ⟨1⟩, ⟨2⟩], some (0.5, [(⟨0⟩, 4.1)])) := by
    decide +kernel
  rcases exists_ok_of_map hread with ⟨c, hc, hparts⟩
  rcases Prod.mk.inj hparts with ⟨hbody, hform⟩
  have hsum := reduce_of_parts hform
  have halike : ∀ v ∈ c.body.vars, m.FixesAlike m' v := by
    rw [hbody]
    simp only [List.forall_mem_cons]
    exact ⟨⟨by decide +kernel, fun h => absurd h (by decide +kernel)⟩,
      ⟨by decide +kernel, fun _ => by decide +kernel⟩,
      ⟨by decide +kernel, fun _ => by decide +kernel⟩, fun _ h => absurd h List.not_mem_nil⟩
  rcases reduce_local c.body with ⟨-, hmodels, hrun⟩
  rcases hrun Pass.standard m' ⟨2⟩ c rfl ⟨_, hm.symm⟩ hc rfl [⟨0⟩, ⟨1⟩] with ⟨c', hc', -, hsame⟩
  exact ⟨m, m', _, c, c', rfl, rfl, by decide +kernel, rfl, by decide +kernel, hc, hc', halike,
    (hmodels m m' halike).trans hsum, hsum, hsame.trans hsum⟩

end Poly

end Runs

end Presolve
