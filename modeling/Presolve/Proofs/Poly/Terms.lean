import Presolve.Linear.Reduce

/-!
# What a Linear Form Mentions

The standard reduction makes a linear form out of the contributions of the terms
of a polynomial. A variable gets a coefficient in the form only through a term
in which it is the one unknown, so it occurs in the polynomial and is not fixed.
The numbers of the form have passed the last check of the reduction, so they are
finite.

A run asks whether the form has exactly one term. The facts above are what it
may then rely on about the variable and the two numbers.

## Main definitions

* `LinearForm.Mentions`: A variable has a coefficient in a form.

## Theorems

* `Poly.reduce_eq_linear`: What is known of a form that the reduction gives.
* `Poly.mentions_of_reduce`: A variable mentioned is an unknown that occurs.
* `LinearForm.terms_of_singleTerm`: The form of a single term.
-/

namespace Presolve

variable {α : Type}

/-- The variable has a coefficient in the form. -/
def LinearForm.Mentions (f : LinearForm α) (v : VariableId) : Prop := v ∈ f.terms.map (·.1)

theorem LinearForm.terms_of_singleTerm {f : LinearForm α} {t : VariableId × α}
    (h : f.singleTerm = some t) : f.terms = [t] := by
  simp only [singleTerm] at h
  split at h
  · rename_i s hs
    rw [Option.some.injEq] at h
    rw [hs, h]
  · exact absurd h (by simp only [reduceCtorEq, not_false_eq_true])

variable [Scalar α]

theorem mem_vars_addTerm {v w : VariableId} {k : α} {terms : List (VariableId × α)} :
    w ∈ (addTerm v k terms).map (·.1) ↔ w = v ∨ w ∈ terms.map (·.1) := by
  induction terms with
  | nil => simp only [addTerm, List.map_cons, List.map_nil, List.mem_singleton, List.not_mem_nil,
      or_false]
  | cons t rest ih =>
      simp only [addTerm]
      -- The term is added to the one of its variable, or further down the list.
      by_cases heq : t.1 = v
      · rw [if_pos heq]
        simp only [List.map_cons, List.mem_cons]
        rw [heq, or_self_left]
      · rw [if_neg heq]
        simp only [List.map_cons, List.mem_cons]
        rw [ih, or_left_comm]

/-- Merging mentions the variables of the contributions and no others. -/
theorem mem_vars_addTerms {w : VariableId} {contributions : List (VariableId × α)} :
    w ∈ (addTerms contributions).map (·.1) ↔ w ∈ contributions.map (·.1) := by
  have hmerge (terms : List (VariableId × α)) :
      w ∈ (contributions.foldl (fun terms t => addTerm t.1 t.2 terms) terms).map (·.1)
        ↔ w ∈ contributions.map (·.1) ∨ w ∈ terms.map (·.1) := by
    induction contributions generalizing terms with
    | nil => simp only [List.foldl_nil, List.map_nil, List.not_mem_nil, false_or]
    | cons t rest ih =>
        rw [List.foldl_cons, ih, mem_vars_addTerm, List.map_cons, List.mem_cons, or_left_comm,
          or_assoc]
  rw [addTerms, hmerge, List.map_nil, List.mem_nil_iff, or_false]

namespace Monomial

variable {n : Nat} {t : Monomial α n} {fixed : FixedValues α}

/-- A term that adds to a coefficient has one unknown. -/
theorem unknown_of_contribution {v : VariableId} {k : α} (h : t.contribution fixed = .term v k) :
    v ∈ t.factors.toList ∧ fixed v = none := by
  have hv : v ∈ t.unknowns fixed := by
    simp only [contribution] at h
    split at h
    · exact absurd h (by simp only [reduceCtorEq, not_false_eq_true])
    · rename_i w hw
      rw [Contribution.term.injEq] at h
      rw [hw, h.1]
      exact List.mem_singleton_self v
    · exact absurd h (by simp only [reduceCtorEq, not_false_eq_true])
  rw [unknowns, List.mem_filter, Option.isNone_iff_eq_none] at hv
  exact hv

end Monomial

theorem firstNonFinite?_eq_none_iff {xs : List α} :
    firstNonFinite? xs = none ↔ ∀ x ∈ xs, Scalar.isFinite x = true := by
  simp only [firstNonFinite?, List.find?_eq_none, Bool.not_eq_true', Bool.not_eq_false]

namespace Poly

variable {p : Poly α} {fixed : FixedValues α}

/-- Every contribution comes from a term. -/
theorem exists_of_mem_contributions {c : Contribution α} (h : c ∈ p.contributions fixed) :
    ∃ n, ∃ t : Monomial α n, c = t.contribution fixed ∧
      ∀ v ∈ t.factors.toList, v ∈ p.occurrences := by
  simp only [contributions, Monomial.productContributions, List.mem_append, List.mem_map,
    List.mem_filter] at h
  simp only [occurrences, List.mem_append, List.mem_flatMap]
  rcases h with (⟨t, ht, rfl⟩ | ⟨t, ⟨ht, -⟩, rfl⟩) | ⟨t, ⟨ht, -⟩, rfl⟩
  · exact ⟨1, t, rfl, fun v hv => Or.inl (Or.inl ⟨t, ht, hv⟩)⟩
  · exact ⟨2, t, rfl, fun v hv => Or.inl (Or.inr ⟨t, ht, hv⟩)⟩
  · exact ⟨3, t, rfl, fun v hv => Or.inr ⟨t, ht, hv⟩⟩

/-- A linear form is the sum of contributions none of which is a product, and its
    numbers are finite. -/
theorem reduce_eq_linear {form : LinearForm α} (h : p.reduce fixed = .ok (.linear form)) :
    (p.contributions fixed).filterMap Contribution.degree? = [] ∧
      form = .ofContributions p.constant (p.contributions fixed) ∧
      ∀ x ∈ form.numbers, Scalar.isFinite x = true := by
  simp only [reduce] at h
  split at h
  · exact absurd h (by simp only [reduceCtorEq, not_false_eq_true])
  · split at h
    · exact absurd h (by simp only [Except.ok.injEq, reduceCtorEq, not_false_eq_true])
    · rename_i hproducts
      split at h
      · exact absurd h (by simp only [reduceCtorEq, not_false_eq_true])
      · rename_i hfinite
        rw [Except.ok.injEq, Reduced.linear.injEq] at h
        rw [← h]
        exact ⟨List.max?_eq_none_iff.mp hproducts, rfl, firstNonFinite?_eq_none_iff.mp hfinite⟩

/-- A variable mentioned by the form occurs in the polynomial and is not fixed. -/
theorem mentions_of_reduce {form : LinearForm α} (h : p.reduce fixed = .ok (.linear form))
    {v : VariableId} (hv : form.Mentions v) : v ∈ p.occurrences ∧ fixed v = none := by
  rw [LinearForm.Mentions, (reduce_eq_linear h).2.1, LinearForm.ofContributions,
    mem_vars_addTerms, List.mem_map] at hv
  rcases hv with ⟨s, hs, rfl⟩
  rcases List.mem_filterMap.mp hs with ⟨c, hc, hterm⟩
  rcases exists_of_mem_contributions hc with ⟨n, t, rfl, hoccurs⟩
  -- Only contributions that are terms were merged into the form.
  have hcontribution : t.contribution fixed = .term s.1 s.2 := by
    cases hct : t.contribution fixed with
    | constant c => rw [hct] at hterm; exact absurd hterm (Option.some_ne_none s).symm
    | term v k =>
        rw [hct, Contribution.term?, Option.some.injEq] at hterm
        rw [← hterm]
    | product degree => rw [hct] at hterm; exact absurd hterm (Option.some_ne_none s).symm
  rcases Monomial.unknown_of_contribution hcontribution with ⟨hfactor, hfree⟩
  exact ⟨hoccurs _ hfactor, hfree⟩

end Poly

end Presolve
