import Mathlib.Data.List.Basic
import Mathlib.Order.Bounds.Basic
import Presolve.Proofs.Poly.Terms

/-!
# Residues

What fixed numbers leave of a polynomial, described without merging anything. Of a term
its folded coefficient is left, together with its unknowns. A residue without unknowns is a
number, one with a single unknown is a multiple of it, and one with more is a product. Of the
products only those count whose folded coefficient is not zero.

The linear form that the reduction builds is then a matter of looking residues up. Its
constant takes the numbers in their order. Its terms are the variables that are the single
unknown of a residue, each where it first occurs, and the coefficient of a variable takes
its multiples in their order. The reduction merges instead, changing one entry at a time,
and the two agree because an entry that is there keeps its place.

## Main definitions

* `Poly.residues`: The residues that count, in written order.
* `Poly.multiples`: The coefficients of the residues with given unknowns.
* `Poly.loneUnknowns`: The variables that are single unknowns.
* `Poly.residualForm`: The linear form, by looking residues up.
* `Poly.Leaves`: A product of so many unknowns is left.

## Theorems

* `foldl_addTerm_cons`: An entry stays at the front while terms are merged.
* `addTerms_eq`: Merging collects the coefficients of each variable.
* `Poly.ofContributions_contributions`: The two linear forms agree.
* `Poly.mem_residues`: Where residues come from.
* `Poly.mem_degrees_iff`: The reduction finds the products that are left.
-/

namespace Presolve

variable {α : Type}

/-- The coefficients that some terms have for one variable, in their order. -/
def coefficientsOf (v : VariableId) (ts : List (VariableId × α)) : List α :=
  ts.filterMap fun t => if t.1 = v then some t.2 else none

/-- The coefficients of the residues with the given unknowns. -/
def coefficientsWith (vs : List VariableId) (rs : List (α × List VariableId)) : List α :=
  rs.filterMap fun r => if r.2 = vs then some r.1 else none

/-- The single unknown of a residue. -/
def loneUnknown? : α × List VariableId → Option VariableId
  | (_, [v]) => some v
  | _ => none

namespace Contribution

/-- What a residue adds. -/
def ofResidue : α × List VariableId → Contribution α
  | (k, []) => .constant k
  | (k, [v]) => .term v k
  | (_, vs) => .product vs.length

theorem degree?_ofResidue (r : α × List VariableId) (n : Nat) :
    (ofResidue r).degree? = some n ↔ 2 ≤ n ∧ r.2.length = n := by
  rcases r with ⟨k, _ | ⟨v, _ | ⟨w, vs⟩⟩⟩
  · simp [ofResidue, degree?]
    omega
  · simp [ofResidue, degree?]
    omega
  · simp [ofResidue, degree?]
    omega

theorem constants_ofResidue (rs : List (α × List VariableId)) :
    (rs.map ofResidue).filterMap constant? = coefficientsWith [] rs := by
  rw [List.filterMap_map]
  refine List.filterMap_congr fun r _ => ?_
  rcases r with ⟨k, _ | ⟨v, _ | ⟨w, vs⟩⟩⟩ <;> rfl

theorem unknowns_ofResidue (rs : List (α × List VariableId)) :
    ((rs.map ofResidue).filterMap term?).map (·.1) = rs.filterMap loneUnknown? := by
  rw [List.filterMap_map, List.map_filterMap]
  refine List.filterMap_congr fun r _ => ?_
  rcases r with ⟨k, _ | ⟨v, _ | ⟨w, vs⟩⟩⟩ <;> rfl

theorem coefficientsOf_ofResidue (v : VariableId) (rs : List (α × List VariableId)) :
    coefficientsOf v ((rs.map ofResidue).filterMap term?) = coefficientsWith [v] rs := by
  rw [List.filterMap_map, coefficientsOf, List.filterMap_filterMap]
  refine List.filterMap_congr fun r _ => ?_
  rcases r with ⟨k, _ | ⟨u, _ | ⟨w, vs⟩⟩⟩
  · rfl
  · by_cases hu : u = v <;> simp [ofResidue, term?, hu]
  · simp [ofResidue, term?]

end Contribution

theorem Monomial.length_unknowns_le {n : Nat} (fixed : FixedValues α) (t : Monomial α n) :
    (t.unknowns fixed).length ≤ n := by
  have hlength := List.length_filter_le (fun v => (fixed v).isNone) t.factors.toList
  rwa [Vector.length_toList] at hlength

theorem Poly.degree_eq (p : Poly α) : p.degree =
    if p.cubic ≠ [] then 3 else if p.quadratic ≠ [] then 2 else if p.linear ≠ [] then 1 else 0 := by
  simp only [degree, Bool.not_eq_true', List.isEmpty_eq_false_iff]

variable [Scalar α]

/-- Above the degree of a polynomial there are no terms. -/
theorem Poly.part_eq_nil {p : Poly α} {d : Nat} (h : p.degree < d) : p.part d = [] := by
  rw [degree_eq] at h
  by_contra hne
  rcases d with _ | _ | _ | _ | d
  · omega
  · rw [if_pos (show p.linear ≠ [] from hne)] at h
    split_ifs at h <;> omega
  · rw [if_pos (show p.quadratic ≠ [] from hne)] at h
    split_ifs at h <;> omega
  · rw [if_pos (show p.cubic ≠ [] from hne)] at h
    omega
  · exact hne rfl

/-- A variable occurs in a polynomial if it is a factor of a term. -/
theorem Poly.mem_vars_iff {p : Poly α} {v : VariableId} :
    v ∈ p.vars ↔ ∃ d, ∃ t ∈ p.part d, v ∈ t.factors.toList := by
  simp only [vars, List.mem_eraseDups, occurrences, List.mem_append, List.mem_flatMap]
  constructor
  · rintro ((⟨t, ht, hv⟩ | ⟨t, ht, hv⟩) | ⟨t, ht, hv⟩)
    · exact ⟨1, t, ht, hv⟩
    · exact ⟨2, t, ht, hv⟩
    · exact ⟨3, t, ht, hv⟩
  · rintro ⟨d, t, ht, hv⟩
    rcases d with _ | _ | _ | _ | d
    · -- The constant has no factors.
      rw [List.eq_nil_of_length_eq_zero t.factors.length_toList] at hv
      cases hv
    · exact Or.inl (Or.inl ⟨t, ht, hv⟩)
    · exact Or.inl (Or.inr ⟨t, ht, hv⟩)
    · exact Or.inr ⟨t, ht, hv⟩
    · cases ht

/-- The sum of some numbers, taken from the left and starting from the first one. -/
def total : List α → α
  | [] => 0
  | k :: ks => ks.foldl (· + ·) k

/-- An entry at the front stays there while terms are merged. It takes in what its
    variable gets, and the rest is merged behind it. -/
theorem foldl_addTerm_cons (v : VariableId) (k : α) (rest ts : List (VariableId × α)) :
    ts.foldl (fun terms t => addTerm t.1 t.2 terms) ((v, k) :: rest)
      = (v, (coefficientsOf v ts).foldl (· + ·) k)
        :: (ts.filter fun t => t.1 ≠ v).foldl (fun terms t => addTerm t.1 t.2 terms) rest := by
  induction ts generalizing k rest with
  | nil => rfl
  | cons t ts ih =>
      by_cases heq : t.1 = v
      · have htaken : coefficientsOf v (t :: ts) = t.2 :: coefficientsOf v ts :=
          List.filterMap_cons_some (if_pos heq)
        rw [List.foldl_cons, addTerm, if_pos heq.symm, ih, htaken, List.foldl_cons,
          List.filter_cons_of_neg (by simp [heq])]
      · have hpassed : coefficientsOf v (t :: ts) = coefficientsOf v ts :=
          List.filterMap_cons_none (if_neg heq)
        rw [List.foldl_cons, addTerm, if_neg (Ne.symm heq), ih, hpassed,
          List.filter_cons_of_pos (by simp [heq]), List.foldl_cons]

/-- Merging gives each variable an entry where it first occurs, with the sum of all its
    coefficients. -/
theorem addTerms_eq (ts : List (VariableId × α)) :
    addTerms ts
      = (ts.map (·.1)).eraseDups.map fun v => (v, total (coefficientsOf v ts)) := by
  cases ts with
  | nil => rfl
  | cons t ts =>
      rcases t with ⟨v, k⟩
      -- Behind the entry of the first variable only the terms of others are merged.
      have ih := addTerms_eq (ts.filter fun t => t.1 ≠ v)
      have hfirst : coefficientsOf v ((v, k) :: ts) = k :: coefficientsOf v ts :=
        List.filterMap_cons_some (if_pos rfl)
      have hothers : (ts.map (·.1)).filter (fun w => !w == v)
          = (ts.filter fun t => t.1 ≠ v).map (·.1) := by
        rw [List.filter_map]
        refine congrArg _ (List.filter_congr fun t _ => ?_)
        by_cases ht : t.1 = v <;> simp [ht]
      have hrest : ∀ w ∈ ((ts.filter fun t => t.1 ≠ v).map (·.1)).eraseDups,
          coefficientsOf w (ts.filter fun t => t.1 ≠ v) = coefficientsOf w ((v, k) :: ts) := by
        intro w hw
        rw [List.mem_eraseDups, List.mem_map] at hw
        rcases hw with ⟨t, ht, rfl⟩
        have hne : t.1 ≠ v := by simpa using (List.mem_filter.mp ht).2
        have hpassed : coefficientsOf t.1 ((v, k) :: ts) = coefficientsOf t.1 ts :=
          List.filterMap_cons_none (if_neg hne.symm)
        rw [hpassed, coefficientsOf, coefficientsOf, List.filterMap_filter]
        refine List.filterMap_congr fun s _ => ?_
        by_cases hs : s.1 = t.1 <;> simp [hs, hne]
      calc addTerms ((v, k) :: ts)
          = (v, (coefficientsOf v ts).foldl (· + ·) k)
              :: addTerms (ts.filter fun t => t.1 ≠ v) := foldl_addTerm_cons v k [] ts
        _ = (v, total (coefficientsOf v ((v, k) :: ts)))
              :: ((ts.filter fun t => t.1 ≠ v).map (·.1)).eraseDups.map fun w =>
                (w, total (coefficientsOf w ((v, k) :: ts))) := by
            rw [ih, hfirst]
            congr 1
            exact List.map_congr_left fun w hw => by rw [hrest w hw]
        _ = _ := by rw [List.map_cons, List.eraseDups_cons, hothers, List.map_cons]
termination_by ts.length
decreasing_by exact Nat.lt_succ_of_le (List.length_filter_le _ _)

namespace Monomial

variable {n : Nat} (fixed : FixedValues α) (t : Monomial α n)

/-- What is left of a term: its folded coefficient and its unknowns. -/
def residue : α × List VariableId := (t.folded fixed, t.unknowns fixed)

theorem contribution_eq : t.contribution fixed = .ofResidue (t.residue fixed) := by
  rw [contribution, residue]
  rcases t.unknowns fixed with _ | ⟨v, _ | ⟨w, vs⟩⟩ <;> rfl

end Monomial

namespace Poly

variable (fixed : FixedValues α) (p : Poly α)

/-- The residues that count, in written order: those of all linear terms, and those of
    products with a folded coefficient that is not zero. -/
def residues : List (α × List VariableId) :=
  p.linear.map (·.residue fixed)
    ++ (p.quadratic.map (·.residue fixed) ++ p.cubic.map (·.residue fixed)).filter (!·.1 == 0)

/-- The folded coefficients of what has the given unknowns left. -/
def multiples (vs : List VariableId) : List α := coefficientsWith vs (p.residues fixed)

/-- The variables that are the single unknown of a residue, in the order in which they
    first are. -/
def loneUnknowns : List VariableId := ((p.residues fixed).filterMap loneUnknown?).eraseDups

/-- The linear form that the residues come to. -/
def residualForm : LinearForm α where
  constant := (p.multiples fixed []).foldl (· + ·) p.constant
  terms := (p.loneUnknowns fixed).map fun v => (v, total (p.multiples fixed [v]))

/-- A product is left that has so many unknowns, more than one, and a folded coefficient
    that is not zero. -/
def Leaves (n : Nat) : Prop :=
  2 ≤ n ∧ ∃ d, ∃ t ∈ p.part d, (t.folded fixed == 0) = false ∧ (t.unknowns fixed).length = n

theorem contributions_eq :
    p.contributions fixed = (p.residues fixed).map Contribution.ofResidue := by
  have hproducts {n : Nat} (ts : List (Monomial α n)) :
      Monomial.productContributions fixed ts
        = ((ts.map (·.residue fixed)).filter (!·.1 == 0)).map Contribution.ofResidue := by
    rw [Monomial.productContributions, List.filter_map, List.map_map]
    exact List.map_congr_left fun t _ => t.contribution_eq fixed
  have hlinear : p.linear.map (Monomial.contribution fixed)
      = (p.linear.map (·.residue fixed)).map Contribution.ofResidue := by
    rw [List.map_map]
    exact List.map_congr_left fun t _ => t.contribution_eq fixed
  rw [contributions, residues, hlinear, hproducts, hproducts, List.filter_append, List.map_append,
    List.map_append, List.append_assoc]

/-- Merging contributions comes to the same linear form as looking residues up. -/
theorem ofContributions_contributions :
    LinearForm.ofContributions p.constant (p.contributions fixed) = p.residualForm fixed := by
  rw [LinearForm.ofContributions, residualForm, contributions_eq, addTerms_eq,
    Contribution.constants_ofResidue, Contribution.unknowns_ofResidue]
  simp only [Contribution.coefficientsOf_ofResidue]
  rfl

variable {fixed p}

/-- A residue that counts is that of a linear term, or of a product that does not vanish. -/
theorem mem_residues {r : α × List VariableId} :
    r ∈ p.residues fixed ↔ ∃ d, 1 ≤ d ∧ ∃ t ∈ p.part d, t.residue fixed = r ∧
      (d = 1 ∨ (r.1 == 0) = false) := by
  simp only [residues, List.mem_append, List.mem_map, List.mem_filter, Bool.not_eq_true']
  constructor
  · rintro (⟨t, ht, rfl⟩ | ⟨⟨t, ht, rfl⟩ | ⟨t, ht, rfl⟩, hzero⟩)
    · exact ⟨1, le_refl 1, t, ht, rfl, Or.inl rfl⟩
    · exact ⟨2, by omega, t, ht, rfl, Or.inr hzero⟩
    · exact ⟨3, by omega, t, ht, rfl, Or.inr hzero⟩
  · rintro ⟨d, hd, t, ht, rfl, hcounts⟩
    -- There are lists of terms for the degrees one, two and three.
    rcases d with _ | _ | _ | _ | d
    · omega
    · exact Or.inl ⟨t, ht, rfl⟩
    · exact Or.inr ⟨Or.inl ⟨t, ht, rfl⟩, hcounts.resolve_left (by omega)⟩
    · exact Or.inr ⟨Or.inr ⟨t, ht, rfl⟩, hcounts.resolve_left (by omega)⟩
    · cases ht

theorem mem_multiples {vs : List VariableId} {k : α} :
    k ∈ p.multiples fixed vs ↔ (k, vs) ∈ p.residues fixed := by
  simp [multiples, coefficientsWith, List.mem_filterMap]

theorem mem_loneUnknowns {v : VariableId} :
    v ∈ p.loneUnknowns fixed ↔ ∃ k, (k, [v]) ∈ p.residues fixed := by
  have hlone (r : α × List VariableId) : loneUnknown? r = some v ↔ r.2 = [v] := by
    rcases r with ⟨k, _ | ⟨u, _ | ⟨w, vs⟩⟩⟩ <;> simp [loneUnknown?]
  simp only [loneUnknowns, List.mem_eraseDups, List.mem_filterMap, hlone, Prod.exists]
  constructor
  · rintro ⟨k, vs, hr, rfl⟩
    exact ⟨k, hr⟩
  · rintro ⟨k, hr⟩
    exact ⟨k, [v], hr, rfl⟩

/-- The degrees among the contributions are the numbers of unknowns of the products left. -/
theorem mem_degrees_iff {n : Nat} :
    n ∈ (p.contributions fixed).filterMap Contribution.degree? ↔ p.Leaves fixed n := by
  rw [contributions_eq, List.filterMap_map, List.mem_filterMap]
  simp only [Function.comp_apply, Contribution.degree?_ofResidue]
  constructor
  · rintro ⟨r, hr, htwo, rfl⟩
    rcases mem_residues.mp hr with ⟨d, -, t, ht, rfl, hcounts⟩
    refine ⟨htwo, d, t, ht, hcounts.resolve_left ?_, rfl⟩
    -- A linear term has one factor only.
    rintro rfl
    have hle := t.length_unknowns_le fixed
    simp only [Monomial.residue] at htwo
    omega
  · rintro ⟨htwo, d, t, ht, hzero, rfl⟩
    have hle := t.length_unknowns_le fixed
    exact ⟨t.residue fixed, mem_residues.mpr ⟨d, by omega, t, ht, rfl, Or.inr hzero⟩, htwo, rfl⟩

/-- A product that is left has no more unknowns than the polynomial has degree. -/
theorem Leaves.le_degree {n : Nat} (h : p.Leaves fixed n) : n ≤ p.degree := by
  rcases h with ⟨-, d, t, ht, -, rfl⟩
  refine (t.length_unknowns_le fixed).trans (not_lt.mp fun hlt => ?_)
  rw [part_eq_nil hlt] at ht
  cases ht

end Poly

end Presolve
