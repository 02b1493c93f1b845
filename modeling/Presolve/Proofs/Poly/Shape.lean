import Mathlib.Data.List.Nodup
import Presolve.Proofs.Poly.Classification

/-!
# The Shape of a Linear Form

A linear form is put together while the terms are gone through, by changing a constant and a
list of coefficients in place. What comes of that can be said without following the changes,
by writing down once what each term adds and to what. The form then collects these shares.
Its constant takes those without a variable, and it has a coefficient for each variable that
is named by a share.

Whether a form has a single term depends on how many variables are named, not on how large
the numbers are. A variable with shares that cancel keeps its place with the coefficient
zero, and so does one that is mentioned with a zero. Only a product whose folded coefficient
is zero has no share.

A product with two unknowns would have no single variable for its share. There is no linear
form then, so in the shares of a form the first unknown of a product is its only one.

## Main definitions

* `Monomial.linearShare`, `Monomial.productShare`: What a term adds, and to what.
* `Poly.shares`: The shares of all terms, in written order.
* `LinearForm.Collects`: A form is made up of shares.

## Theorems

* `Poly.shares_eq`: The shares are the residues, told apart by their first unknown.
* `LinearForm.Collects.mentions_iff`: A form mentions the variables named by its shares.
* `LinearForm.Collects.isSome_singleTerm_iff`: When a form has a single term.
* `Poly.shape_of_reduce`: What the linear form of a polynomial looks like.
-/

namespace Presolve

open Scalar

variable {α : Type}

/-- The amounts of the shares that go to one recipient, in their order. -/
def amountsTo (recipient : Option VariableId) (shares : List (Option VariableId × α)) : List α :=
  (shares.filter fun s => s.1 = recipient).map (·.2)

/-- Erasing repetitions leaves none. -/
theorem nodup_eraseDups (vs : List VariableId) : vs.eraseDups.Nodup := by
  cases vs with
  | nil => exact List.nodup_nil
  | cons v rest =>
      have ih := nodup_eraseDups (rest.filter fun w => !w == v)
      rw [List.eraseDups_cons, List.nodup_cons, List.mem_eraseDups, List.mem_filter]
      exact ⟨by simp, ih⟩
termination_by vs.length
decreasing_by exact Nat.lt_succ_of_le (List.length_filter_le _ _)

variable [Scalar α]

namespace Monomial

variable {n : Nat}

/-- A linear term adds its coefficient to that of its variable or, if the variable is fixed, the
    product with its number to the constant. -/
def linearShare (fixed : FixedValues α) (t : Monomial α 1) : Option VariableId × α :=
  (fixed t.factors[0]).elim (some t.factors[0], t.coefficient) fun a => (none, t.coefficient * a)

/-- A product adds its folded coefficient to that of its first unknown or, if it has none, to the
    constant. -/
def productShare (fixed : FixedValues α) (t : Monomial α n) : Option VariableId × α :=
  ((t.unknowns fixed).head?, t.folded fixed)

/-- For a linear term the two rules are the same. -/
theorem productShare_linear (fixed : FixedValues α) (t : Monomial α 1) :
    t.productShare fixed = t.linearShare fixed := by
  have hfactors : t.factors.toList = [t.factors[0]] := by
    rcases t with ⟨⟨⟨factors⟩, hsize⟩, k⟩
    rcases List.length_eq_one_iff.mp hsize with ⟨v, rfl⟩
    rfl
  rw [productShare, linearShare, unknowns, folded, hfactors]
  cases hv : fixed t.factors[0] with
  | none => simp [hv]
  | some a => simp [hv]

end Monomial

/-- What the terms of a polynomial add, and to what, in written order. A product whose folded
    coefficient is zero adds nothing. -/
def Poly.shares (fixed : FixedValues α) (p : Poly α) : List (Option VariableId × α) :=
  p.linear.map (·.linearShare fixed)
    ++ ((p.quadratic.map (·.productShare fixed)).filter (!·.2 == 0)
      ++ (p.cubic.map (·.productShare fixed)).filter (!·.2 == 0))

/-- A form is made up of shares, on top of a first constant. -/
structure LinearForm.Collects (form : LinearForm α) (start : α)
    (shares : List (Option VariableId × α)) : Prop where
  /-- The variables named by shares, each once, where it is first named. -/
  variables_eq : form.terms.map (·.1) = (shares.filterMap (·.1)).eraseDups
  /-- A coefficient is the sum of the shares of its variable, taken from the left. -/
  coefficient_eq : ∀ t ∈ form.terms, t.2 = total (amountsTo (some t.1) shares)
  /-- The constant takes in the other shares, from the left. -/
  constant_eq : form.constant = (amountsTo none shares).foldl (· + ·) start

namespace LinearForm.Collects

variable {form : LinearForm α} {start : α} {shares : List (Option VariableId × α)}

theorem mentions_iff (h : form.Collects start shares) {v : VariableId} :
    form.Mentions v ↔ ∃ k, (some v, k) ∈ shares := by
  rw [LinearForm.Mentions, h.variables_eq, List.mem_eraseDups, List.mem_filterMap]
  constructor
  · rintro ⟨⟨recipient, k⟩, hs, rfl⟩
    exact ⟨k, hs⟩
  · rintro ⟨k, hs⟩
    exact ⟨_, hs, rfl⟩

theorem nodup (h : form.Collects start shares) : (form.terms.map (·.1)).Nodup :=
  h.variables_eq ▸ nodup_eraseDups _

/-- A form has a single term if and only if one variable is named by its shares, however often. -/
theorem isSome_singleTerm_iff (h : form.Collects start shares) :
    form.singleTerm.isSome = true ↔ ∃! v, ∃ k, (some v, k) ∈ shares := by
  simp only [← h.mentions_iff]
  constructor
  · intro hsome
    rcases Option.isSome_iff_exists.mp hsome with ⟨t, ht⟩
    have hterms := LinearForm.terms_of_singleTerm ht
    refine ⟨t.1, ?_, fun v hv => ?_⟩
    · simp only [LinearForm.Mentions, hterms, List.map_singleton, List.mem_singleton]
    · simpa only [LinearForm.Mentions, hterms, List.map_singleton, List.mem_singleton] using hv
  · rintro ⟨v, hv, hunique⟩
    -- A list without repetitions that has one member only is of length one.
    have hvars : form.terms.map (·.1) = [v] :=
      List.perm_singleton.mp ((List.perm_ext_iff_of_nodup h.nodup (List.nodup_singleton v)).mpr
        fun w => ⟨fun hw => List.mem_singleton.mpr (hunique w hw),
          fun hw => List.mem_singleton.mp hw ▸ hv⟩)
    rcases List.map_eq_singleton_iff.mp hvars with ⟨t, hterms, -⟩
    rw [LinearForm.singleTerm, hterms]
    rfl

end LinearForm.Collects

namespace Poly

variable {fixed : FixedValues α} {p : Poly α} {form : LinearForm α}

/-- The shares are the residues that count, each with its first unknown. -/
theorem shares_eq (fixed : FixedValues α) (p : Poly α) :
    p.shares fixed = (p.residues fixed).map fun r => (r.2.head?, r.1) := by
  have hproducts {n : Nat} (ts : List (Monomial α n)) :
      (ts.map (·.productShare fixed)).filter (!·.2 == 0)
        = ((ts.map (·.residue fixed)).filter (!·.1 == 0)).map fun r => (r.2.head?, r.1) := by
    simp only [List.filter_map, List.map_map]
    rfl
  have hlinear : p.linear.map (·.linearShare fixed)
      = (p.linear.map (·.residue fixed)).map fun r => (r.2.head?, r.1) := by
    rw [List.map_map]
    exact List.map_congr_left fun t _ => (t.productShare_linear fixed).symm
  rw [shares, residues, hlinear, hproducts, hproducts, List.filter_append, List.map_append,
    List.map_append]

/-- Where no product is left, the unknowns of a residue that counts are one variable or none. -/
theorem exists_unknowns_of_mem_residues (hnone : ∀ n, ¬ p.Leaves fixed n)
    {r : α × List VariableId} (hr : r ∈ p.residues fixed) :
    ∃ recipient : Option VariableId, r.2 = recipient.toList := by
  rcases mem_residues.mp hr with ⟨d, -, t, ht, rfl, hcounts⟩
  have hlength : (t.unknowns fixed).length ≤ 1 := by
    rcases hcounts with rfl | hzero
    · exact t.length_unknowns_le fixed
    · by_contra hlt
      exact hnone _ ⟨not_le.mp hlt, d, t, ht, hzero, rfl⟩
  rcases Nat.le_one_iff_eq_zero_or_eq_one.mp hlength with hnil | hone
  · exact ⟨none, List.length_eq_zero_iff.mp hnil⟩
  · rcases List.length_eq_one_iff.mp hone with ⟨v, hv⟩
    exact ⟨some v, hv⟩

/-- Where no product is left, the amounts that go to one recipient are the multiples of it. -/
theorem amountsTo_shares (hnone : ∀ n, ¬ p.Leaves fixed n) (recipient : Option VariableId) :
    amountsTo recipient (p.shares fixed) = p.multiples fixed recipient.toList := by
  rw [amountsTo, shares_eq, multiples, coefficientsWith, ← List.filterMap_eq_map,
    List.filterMap_filter, List.filterMap_map]
  refine List.filterMap_congr fun r hr => ?_
  rcases exists_unknowns_of_mem_residues hnone hr with ⟨other, hother⟩
  -- The recipients are the same if and only if the unknowns are.
  cases recipient <;> cases other <;> simp [hother]

/-- Where no product is left, the form that the residues come to is made up of the shares. -/
theorem collects_residualForm (hnone : ∀ n, ¬ p.Leaves fixed n) :
    (p.residualForm fixed).Collects p.constant (p.shares fixed) where
  variables_eq := by
    have hunknown : (p.shares fixed).filterMap (·.1) = (p.residues fixed).filterMap loneUnknown? := by
      rw [shares_eq, List.filterMap_map]
      refine List.filterMap_congr fun r hr => ?_
      rcases r with ⟨k, unknowns⟩
      obtain ⟨recipient, rfl⟩ : ∃ recipient : Option VariableId, unknowns = recipient.toList :=
        exists_unknowns_of_mem_residues hnone hr
      cases recipient <;> rfl
    rw [hunknown, residualForm, List.map_map]
    exact List.map_id _
  coefficient_eq := by
    intro t ht
    rcases List.mem_map.mp ht with ⟨v, -, rfl⟩
    rw [amountsTo_shares hnone]
    rfl
  constant_eq := by
    rw [amountsTo_shares hnone]
    rfl

/-- Let a polynomial have a linear form. Its products that do not vanish have one unknown at
    most, and the form is made up of the shares of its terms, with a single entry for each
    variable. The variables it mentions are those named by a share. They occur and are not fixed,
    and all its numbers are finite. It has a single term if and only if one unknown is named. -/
theorem shape_of_reduce (h : p.reduce fixed = .ok (.linear form)) :
    (∀ d, 2 ≤ d → ∀ t ∈ p.part d, (t.folded fixed == 0) = false →
      t.unknowns fixed = [] ∨ ∃ v, t.unknowns fixed = [v]) ∧
      form.Collects p.constant (p.shares fixed) ∧ (form.terms.map (·.1)).Nodup ∧
      (∀ v, form.Mentions v ↔ ∃ k, (some v, k) ∈ p.shares fixed) ∧
      (∀ v, form.Mentions v → fixed v = none ∧ v ∈ p.vars) ∧
      (∀ x ∈ form.numbers, isFinite x = true) ∧
      (form.singleTerm.isSome = true ↔ ∃! v, fixed v = none ∧ ∃ k, (some v, k) ∈ p.shares fixed) := by
  have hmentions (v : VariableId) (hv : form.Mentions v) : fixed v = none ∧ v ∈ p.vars := by
    rcases mentions_of_reduce h hv with ⟨hoccurs, hfree⟩
    exact ⟨hfree, List.mem_eraseDups.mpr hoccurs⟩
  cases Classified.of_reduce h with
  | linear written none_left numbers =>
      have hcollects := collects_residualForm none_left
      refine ⟨?_, hcollects, hcollects.nodup, fun v => hcollects.mentions_iff, hmentions, numbers, ?_⟩
      · intro d hd t ht hzero
        have hmem : t.residue fixed ∈ p.residues fixed :=
          mem_residues.mpr ⟨d, by omega, t, ht, rfl, Or.inr hzero⟩
        rcases exists_unknowns_of_mem_residues none_left hmem with ⟨_ | v, hunknowns⟩
        · exact Or.inl hunknowns
        · exact Or.inr ⟨v, hunknowns⟩
      · rw [hcollects.isSome_singleTerm_iff]
        -- A variable that is named by a share is not fixed in any case.
        simp only [← hcollects.mentions_iff]
        refine existsUnique_congr fun v => ?_
        exact ⟨fun hv => ⟨(hmentions v hv).1, hv⟩, fun hv => hv.2⟩

/-- The variable `0` is fixed at `2` and the variable `3` at `0`. The variable `1` is named by two
    linear terms and a product. The shares of the variable `2` cancel, and it stays with the
    coefficient zero. Products with a zero name nothing, so the variables `4` and `5` are not
    mentioned. The form of the second polynomial has a single term, which is named twice. -/
theorem shape_of_reduce_cancelled :
    ∃ (p q : Poly Float) (fixed : FixedValues Float) (form single : LinearForm Float),
      p = ⟨1, [⟨#v[⟨1⟩], 0.1⟩, ⟨#v[⟨0⟩], 3⟩, ⟨#v[⟨2⟩], 5⟩, ⟨#v[⟨1⟩], 0.2⟩, ⟨#v[⟨2⟩], -5⟩],
        [⟨#v[⟨4⟩, ⟨5⟩], 0⟩, ⟨#v[⟨1⟩, ⟨0⟩], 0.3⟩, ⟨#v[⟨4⟩, ⟨3⟩], 7⟩],
        [⟨#v[⟨0⟩, ⟨0⟩, ⟨0⟩], 1⟩, ⟨#v[⟨0⟩, ⟨5⟩, ⟨3⟩], 1⟩]⟩ ∧
      q = ⟨0, [⟨#v[⟨1⟩], 1⟩, ⟨#v[⟨0⟩], 1⟩, ⟨#v[⟨1⟩], -1⟩], [⟨#v[⟨2⟩, ⟨3⟩], 1⟩], []⟩ ∧
      p.reduce fixed = .ok (.linear form) ∧ q.reduce fixed = .ok (.linear single) ∧
      p.shares fixed = [(some ⟨1⟩, 0.1), (none, 6), (some ⟨2⟩, 5), (some ⟨1⟩, 0.2), (some ⟨2⟩, -5),
        (some ⟨1⟩, 0.6), (none, 8)] ∧
      form.Collects 1 (p.shares fixed) ∧
      form.constant = 15 ∧ form.terms = [(⟨1⟩, 0.1 + 0.2 + 0.6), (⟨2⟩, 0)] ∧
      single.singleTerm = some (⟨1⟩, 0) ∧
      ∃! v, fixed v = none ∧ ∃ k, (some v, k) ∈ q.shares fixed := by
  set p : Poly Float :=
    ⟨1, [⟨#v[⟨1⟩], 0.1⟩, ⟨#v[⟨0⟩], 3⟩, ⟨#v[⟨2⟩], 5⟩, ⟨#v[⟨1⟩], 0.2⟩, ⟨#v[⟨2⟩], -5⟩],
      [⟨#v[⟨4⟩, ⟨5⟩], 0⟩, ⟨#v[⟨1⟩, ⟨0⟩], 0.3⟩, ⟨#v[⟨4⟩, ⟨3⟩], 7⟩],
      [⟨#v[⟨0⟩, ⟨0⟩, ⟨0⟩], 1⟩, ⟨#v[⟨0⟩, ⟨5⟩, ⟨3⟩], 1⟩]⟩
  set q : Poly Float :=
    ⟨0, [⟨#v[⟨1⟩], 1⟩, ⟨#v[⟨0⟩], 1⟩, ⟨#v[⟨1⟩], -1⟩], [⟨#v[⟨2⟩, ⟨3⟩], 1⟩], []⟩
  set fixed : FixedValues Float := fun v =>
    if v = ⟨0⟩ then some 2 else if v = ⟨3⟩ then some 0 else none
  have hform (r : Poly Float) (read : Float × List (VariableId × Float))
      (hread : ((r.reduce fixed).toOption.bind Reduced.form?).map
        (fun form => (form.constant, form.terms)) = some read) :
      r.reduce fixed = .ok (.linear ⟨read.1, read.2⟩) := by
    rcases h : r.reduce fixed with e | form | degree <;> rw [h] at hread
    · cases hread
    · cases hread
      rfl
    · cases hread
  have hp := hform p (15, [(⟨1⟩, 0.1 + 0.2 + 0.6), (⟨2⟩, 0)]) (by decide +kernel)
  have hq := hform q (2, [(⟨1⟩, 0)]) (by decide +kernel)
  rcases shape_of_reduce hp with ⟨-, hcollects, -⟩
  rcases shape_of_reduce hq with ⟨-, -, -, -, -, -, hsingle⟩
  exact ⟨p, q, fixed, _, _, rfl, rfl, hp, hq, by decide +kernel, hcollects, rfl, rfl, rfl,
    hsingle.mp rfl⟩

end Poly

end Presolve
