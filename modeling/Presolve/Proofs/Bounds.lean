import Presolve.Bounds
import Presolve.Proofs.Scalar.Order

/-!
# Merging Bounds

A run puts numbers onto the sides of a variable one after the other, keeping the
more restrictive one each time. What remains on a side is the tightest of all
numbers that were put there, and `Side.Tightest` says so without an order in
which they came.

A value is moved between the bounds each time they change, so it may have been
moved many times before the last bounds are known. None of these moves matters:
moving a value between some bounds and then between tighter ones comes to moving
it between the tighter ones at once. This holds of the places of the values and
even of bounds that are crossed, since the lower bound is applied first both
times.

## Main definitions

* `Side.Dominates`: A number is at least as restrictive as another one.
* `Side.merge`, `Bounds.merge`: The more restrictive number on a side.
* `Side.Tightest`: The most restrictive number of a list.
* `Bounds.Refines`: Some bounds are at least as tight as others.
* `Bounds.repair`: A value moved between the bounds, kept if it is there.

## Theorems

* `Side.Tightest.merge`: Merging a number keeps the tightest one.
* `Side.Tightest.agree`: The tightest number depends on the members alone.
* `Bounds.contains_merge_iff`: Merged bounds contain what both contain.
* `Bounds.contains_clamp`: A value is moved to where the bounds contain it.
* `Bounds.clamp_of_crossed`: Crossed bounds move every value to the upper one.
* `Bounds.clampPlace_of_refines`: A move between wider bounds does not matter.
* `Bounds.place_repair`: A repair moves the place of a value.
-/

namespace Presolve

open Scalar OrderedScalar

variable {α : Type} [Scalar α]

namespace Side

/-- As a bound on this side, `a` is at least as restrictive as `b`. -/
def Dominates : Side → α → α → Prop
  | lower, a, b => b ≤ a
  | upper, a, b => a ≤ b

/-- The more restrictive of two numbers on this side, as far as there are any. -/
def merge (s : Side) : Option α → Option α → Option α
  | none, y => y
  | some x, none => some x
  | some x, some y => some (s.tighter x y)

/-- The bound is the most restrictive number of a list, and absent if the list is
    empty. -/
def Tightest (s : Side) (xs : List α) : Option α → Prop
  | none => xs = []
  | some b => b ∈ xs ∧ ∀ x ∈ xs, s.Dominates b x

theorem merge_none (s : Side) (x : Option α) : s.merge x none = x := by
  cases x <;> rfl

theorem eq_flip_of_ne (s : Side) {t : Side} (h : t ≠ s) : t = s.flip := by
  cases s <;> cases t
  · exact absurd rfl h
  · rfl
  · rfl
  · exact absurd rfl h

theorem flip_flip (s : Side) : s.flip.flip = s := by
  cases s <;> rfl

/-- Dividing twice by numbers of one sign turns a side around twice. -/
theorem scaled_scaled (s : Side) (k : α) : (s.scaled k).scaled k = s := by
  simp only [scaled]
  split
  · rfl
  · exact flip_flip s

theorem scaled_flip (s : Side) (k : α) : s.flip.scaled k = (s.scaled k).flip := by
  simp only [scaled]
  split <;> rfl

theorem tighter_eq_or_eq (s : Side) (a b : α) : s.tighter a b = a ∨ s.tighter a b = b := by
  cases s
  · simp only [tighter]
    split
    · exact Or.inr rfl
    · exact Or.inl rfl
  · simp only [tighter]
    split
    · exact Or.inr rfl
    · exact Or.inl rfl

theorem mem_merge {s : Side} {x y : Option α} {a : α} (h : a ∈ s.merge x y) : a ∈ x ∨ a ∈ y := by
  cases x with
  | none => exact Or.inr h
  | some b =>
      cases y with
      | none => exact Or.inl h
      | some c =>
          rw [merge, Option.mem_some_iff] at h
          rcases s.tighter_eq_or_eq b c with heq | heq
          · exact Or.inl (congrArg some (heq.symm.trans h))
          · exact Or.inr (congrArg some (heq.symm.trans h))

variable [OrderedScalar α] {s : Side} {a b c : α}

theorem Dominates.self (h : IsNumber a) : s.Dominates a a := by
  cases s
  · exact le_self h
  · exact le_self h

theorem Dominates.trans (hab : s.Dominates a b) (hbc : s.Dominates b c) : s.Dominates a c := by
  cases s
  · exact le_trans hbc hab
  · exact le_trans hab hbc

theorem Dominates.isNumber (h : s.Dominates a b) : IsNumber a ∧ IsNumber b := by
  cases s
  · exact ⟨(le_iff.mp h).2.1, (le_iff.mp h).1⟩
  · exact ⟨(le_iff.mp h).1, (le_iff.mp h).2.1⟩

theorem Dominates.beq (hab : s.Dominates a b) (hba : s.Dominates b a) : (a == b) = true := by
  cases s
  · exact beq_of_le hba hab
  · exact beq_of_le hab hba

theorem tighter_dominates_left (ha : IsNumber a) : s.Dominates (s.tighter a b) a := by
  cases s
  · simp only [tighter]
    split
    · exact le_of_lt ‹a < b›
    · exact le_self ha
  · simp only [tighter]
    split
    · exact le_of_lt ‹b < a›
    · exact le_self ha

theorem tighter_dominates_right (ha : IsNumber a) (hb : IsNumber b) :
    s.Dominates (s.tighter a b) b := by
  cases s
  · simp only [tighter]
    split
    · exact le_self hb
    · exact le_of_not_lt ha hb ‹¬ a < b›
  · simp only [tighter]
    split
    · exact le_self hb
    · exact le_of_not_lt hb ha ‹¬ b < a›

theorem Tightest.isNumber {xs : List α} {x y : α} (h : s.Tightest xs (some x)) (hy : y ∈ xs) :
    IsNumber y :=
  (h.2 y hy).isNumber.2

theorem tightest_toList {x : Option α} (h : ∀ a ∈ x, IsNumber a) : s.Tightest x.toList x := by
  cases x with
  | none => rfl
  | some a =>
      refine ⟨List.mem_singleton_self a, fun y hy => ?_⟩
      rw [List.mem_singleton.mp hy]
      exact Dominates.self (h a rfl)

/-- Merging one more number keeps the tightest one. -/
theorem Tightest.merge {xs : List α} {x y : Option α} (h : s.Tightest xs x)
    (hy : ∀ a ∈ y, IsNumber a) : s.Tightest (xs ++ y.toList) (s.merge x y) := by
  cases y with
  | none => rwa [Option.toList_none, List.append_nil, merge_none]
  | some b =>
      have hb : IsNumber b := hy b rfl
      cases x with
      | none =>
          rw [show xs = [] from h]
          exact tightest_toList hy
      | some a =>
          have ha : IsNumber a := h.isNumber h.1
          -- The result is one of the two, and as restrictive as either.
          refine ⟨?_, fun z hz => ?_⟩
          · rcases s.tighter_eq_or_eq a b with heq | heq <;> rw [heq]
            · exact List.mem_append_left _ h.1
            · exact List.mem_append_right _ (List.mem_singleton_self b)
          · rcases List.mem_append.mp hz with hz | hz
            · exact (tighter_dominates_left ha).trans (h.2 z hz)
            · rw [List.mem_singleton.mp hz]
              exact tighter_dominates_right ha hb

/-- The tightest number depends on the members of the list alone. -/
theorem Tightest.agree {xs ys : List α} {x y : Option α} (hx : s.Tightest xs x)
    (hy : s.Tightest ys y) (h : ∀ a, a ∈ xs ↔ a ∈ ys) : (x == y) = true := by
  cases x with
  | none =>
      cases y with
      | none => rfl
      | some b =>
          have hb := (h b).mpr hy.1
          rw [show xs = [] from hx] at hb
          exact absurd hb List.not_mem_nil
  | some a =>
      cases y with
      | none =>
          have ha := (h a).mp hx.1
          rw [show ys = [] from hy] at ha
          exact absurd ha List.not_mem_nil
      | some b =>
          -- Each of the two is in both lists, so each dominates the other.
          exact (hx.2 b ((h b).mpr hy.1)).beq (hy.2 a ((h a).mp hx.1))

end Side

namespace Bounds

/-- The more restrictive number on either side. -/
def merge (b c : Bounds α) : Bounds α where
  lower := Side.lower.merge b.lower c.lower
  upper := Side.upper.merge b.upper c.upper

/-- The bounds are at least as tight as others. -/
def Refines (c b : Bounds α) : Prop :=
  ∀ s : Side, ∀ x ∈ b.get s, ∃ y ∈ c.get s, s.Dominates y x

/-- A value moved between the bounds. One that is there already is kept as it
    is. -/
def repair (b : Bounds α) (x : α) : α :=
  let moved := b.clamp x
  if moved == x then x else moved

omit [Scalar α] in
theorem set_get (b : Bounds α) (side : Side) : b.set side (b.get side) = b := by
  cases b
  cases side <;> rfl

theorem merge_empty (b : Bounds α) : b.merge {} = b := by
  rw [merge, Side.merge_none, Side.merge_none]

theorem get_merge (b c : Bounds α) (s : Side) :
    (b.merge c).get s = s.merge (b.get s) (c.get s) := by
  cases s <;> rfl

theorem hasNaN_iff (b : Bounds α) :
    b.hasNaN = false ↔ ∀ s : Side, ∀ x ∈ b.get s, IsNumber x := by
  have hside (x : Option α) : x.any isNaN = false ↔ ∀ a ∈ x, IsNumber a := by
    cases x with
    | none => simp only [Option.any_none, Option.not_mem_none, false_implies, implies_true]
    | some a =>
        simp only [Option.any_some, Option.mem_some_iff, forall_eq']
        exact Iff.rfl
  rw [hasNaN, Bool.or_eq_false_iff, hside, hside]
  refine ⟨fun h s => ?_, fun h => ⟨h .lower, h .upper⟩⟩
  cases s
  · exact h.1
  · exact h.2

omit [Scalar α] in
/-- What holds on both sides and of a number holds once the number is put on a side. -/
theorem forall_get_set {P : Side → α → Prop} {b : Bounds α} {s : Side} {x : Option α}
    (hb : ∀ t : Side, ∀ a ∈ b.get t, P t a) (hx : ∀ a ∈ x, P s a) :
    ∀ t : Side, ∀ a ∈ (b.set s x).get t, P t a := by
  intro t a ha
  by_cases hts : t = s
  · rw [hts, get_set_self] at ha
    exact hts ▸ hx a ha
  · rw [s.eq_flip_of_ne hts, get_set_flip, ← s.eq_flip_of_ne hts] at ha
    exact hb t a ha

theorem hasNaN_set {b : Bounds α} {s : Side} {x : Option α} (hb : b.hasNaN = false)
    (hx : ∀ a ∈ x, IsNumber a) : (b.set s x).hasNaN = false := by
  rw [hasNaN_iff] at hb ⊢
  exact forall_get_set (P := fun _ => IsNumber) hb hx

theorem hasNaN_merge {b c : Bounds α} (hb : b.hasNaN = false) (hc : c.hasNaN = false) :
    (b.merge c).hasNaN = false := by
  rw [hasNaN_iff] at hb hc ⊢
  intro s x hx
  rw [get_merge] at hx
  exact (Side.mem_merge hx).elim (hb s x) (hc s x)

variable [OrderedScalar α] {b c : Bounds α} {x : α}

theorem refines_self (hb : b.hasNaN = false) : b.Refines b :=
  fun s x hx => ⟨x, hx, Side.Dominates.self ((hasNaN_iff b).mp hb s x hx)⟩

theorem Refines.trans {a : Bounds α} (hcb : c.Refines b) (hba : b.Refines a) : c.Refines a := by
  intro s x hx
  rcases hba s x hx with ⟨y, hy, hyx⟩
  rcases hcb s y hy with ⟨z, hz, hzy⟩
  exact ⟨z, hz, hzy.trans hyx⟩

theorem merge_refines (hb : b.hasNaN = false) (c : Bounds α) : (b.merge c).Refines b := by
  intro s x hx
  rw [get_merge, hx]
  have hnumber := (hasNaN_iff b).mp hb s x hx
  cases c.get s with
  | none => exact ⟨x, rfl, Side.Dominates.self hnumber⟩
  | some y => exact ⟨s.tighter x y, rfl, Side.tighter_dominates_left hnumber⟩

theorem merge_refines_right (hb : b.hasNaN = false) (hc : c.hasNaN = false) :
    (b.merge c).Refines c := by
  intro s x hx
  rw [get_merge, hx]
  have hnumber := (hasNaN_iff c).mp hc s x hx
  cases hbs : b.get s with
  | none => exact ⟨x, rfl, Side.Dominates.self hnumber⟩
  | some y =>
      have hy := (hasNaN_iff b).mp hb s y hbs
      exact ⟨s.tighter y x, rfl, Side.tighter_dominates_right hy hnumber⟩

omit [OrderedScalar α] in
/-- A value within the bounds says on either side at least what the bound says. -/
theorem contains_iff : b.Contains x ↔ ∀ s : Side, ∀ y ∈ b.get s, s.Dominates x y := by
  refine ⟨fun h s => ?_, fun h => ⟨h .lower, h .upper⟩⟩
  cases s
  · exact h.1
  · exact h.2

theorem Refines.contains (h : c.Refines b) (hx : c.Contains x) : b.Contains x := by
  rw [contains_iff] at hx ⊢
  intro s y hy
  rcases h s y hy with ⟨z, hz, hzy⟩
  exact (hx s z hz).trans hzy

/-- Merged bounds contain what both contain. -/
theorem contains_merge_iff (hb : b.hasNaN = false) (hc : c.hasNaN = false) :
    (b.merge c).Contains x ↔ b.Contains x ∧ c.Contains x := by
  refine ⟨fun h => ⟨(merge_refines hb c).contains h, (merge_refines_right hb hc).contains h⟩, ?_⟩
  rintro ⟨hxb, hxc⟩
  rw [contains_iff] at hxb hxc ⊢
  intro s y hy
  rw [get_merge] at hy
  exact (Side.mem_merge hy).elim (hxb s y) (hxc s y)

theorem le_of_ordered (hnumber : b.hasNaN = false) (hordered : b.crossed = false) {l u : α}
    (hl : b.lower = some l) (hu : b.upper = some u) : l ≤ u := by
  rw [hasNaN_iff] at hnumber
  rw [crossed, hl, hu, decide_eq_false_iff_not] at hordered
  exact le_of_not_lt (hnumber .upper u hu) (hnumber .lower l hl) hordered

/-- Where a place is moved to by moving it up to the lower bound and then down to
    the upper one. -/
def clampPlace (b : Bounds α) (p : Line α) : Line α :=
  let raised := b.lower.elim p fun l => max (place l) p
  b.upper.elim raised fun u => min (place u) raised

theorem place_clamp (hb : b.hasNaN = false) (hx : IsNumber x) :
    IsNumber (b.clamp x) ∧ place (b.clamp x) = b.clampPlace (place x) := by
  have hnumber := (hasNaN_iff b).mp hb
  -- The value is first moved up.
  have hraise : IsNumber (b.lower.elim x fun l => if x < l then l else x) ∧
      place (b.lower.elim x fun l => if x < l then l else x)
        = b.lower.elim (place x) fun l => max (place l) (place x) := by
    cases hl : b.lower with
    | none => exact ⟨hx, rfl⟩
    | some l =>
        have hlnumber : IsNumber l := hnumber .lower l hl
        simp only [Option.elim_some]
        by_cases hlt : x < l
        · rw [if_pos hlt, max_eq_left (lt_iff.mp hlt).2.2.le]
          exact ⟨hlnumber, rfl⟩
        · rw [if_neg hlt, max_eq_right (le_iff.mp (le_of_not_lt hx hlnumber hlt)).2.2]
          exact ⟨hx, rfl⟩
  simp only [clamp, clampPlace]
  rw [← hraise.2]
  cases hu : b.upper with
  | none => exact ⟨hraise.1, rfl⟩
  | some u =>
      have hunumber : IsNumber u := hnumber .upper u hu
      simp only [Option.elim_some]
      split
      · rename_i hlt
        exact ⟨hunumber, (min_eq_left (lt_iff.mp hlt).2.2.le).symm⟩
      · rename_i hlt
        have hle := (le_iff.mp (le_of_not_lt hunumber hraise.1 hlt)).2.2
        exact ⟨hraise.1, (min_eq_right hle).symm⟩

/-- A value moved between bounds that are not crossed lies within them. -/
theorem contains_clamp (hb : b.hasNaN = false) (hordered : b.crossed = false) (hx : IsNumber x) :
    b.Contains (b.clamp x) := by
  have hnumber := (hasNaN_iff b).mp hb
  rcases place_clamp hb hx with ⟨hclamp, hplace⟩
  refine ⟨fun l hl => ?_, fun u hu => ?_⟩
  · refine le_iff.mpr ⟨hnumber .lower l hl, hclamp, ?_⟩
    rw [hplace, clampPlace, Option.mem_def.mp hl]
    -- The move down to the upper bound does not pass the lower one.
    cases hu : b.upper with
    | none => exact le_max_left _ _
    | some u =>
        have hle := (le_iff.mp (le_of_ordered hb hordered hl hu)).2.2
        exact le_min hle (le_max_left _ _)
  · refine le_iff.mpr ⟨hclamp, hnumber .upper u hu, ?_⟩
    rw [hplace, clampPlace, Option.mem_def.mp hu]
    exact min_le_left _ _

/-- A value moved between crossed bounds ends up at the upper one. -/
theorem clamp_of_crossed (hb : b.hasNaN = false) (hcrossed : b.crossed = true)
    (hx : IsNumber x) : ∃ u ∈ b.upper, b.clamp x = u := by
  have hnumber := (hasNaN_iff b).mp hb
  rw [crossed] at hcrossed
  split at hcrossed
  · rename_i l u hl hu
    have hlt : u < l := of_decide_eq_true hcrossed
    refine ⟨u, hu, ?_⟩
    -- Whether or not the value is moved up, it is above the upper bound then.
    have hraised : u < if x < l then l else x := by
      split
      · exact hlt
      · rename_i hnot
        exact lt_of_lt_of_le hlt (le_of_not_lt hx (hnumber .lower l hl) hnot)
    rw [clamp, hl, hu]
    exact if_pos hraised
  · cases hcrossed

/-- A move between some bounds does not matter to a move between tighter ones. -/
theorem clampPlace_of_refines (h : c.Refines b) (p : Line α) :
    c.clampPlace (b.clampPlace p) = c.clampPlace p := by
  have hlower (l : α) (hl : b.lower = some l) : ∃ l', c.lower = some l' ∧ place l ≤ place l' := by
    rcases h .lower l hl with ⟨l', hl', hle⟩
    exact ⟨l', hl', (le_iff.mp hle).2.2⟩
  have hupper (u : α) (hu : b.upper = some u) : ∃ u', c.upper = some u' ∧ place u' ≤ place u := by
    rcases h .upper u hu with ⟨u', hu', hle⟩
    exact ⟨u', hu', (le_iff.mp hle).2.2⟩
  simp only [clampPlace]
  -- Bounds that are absent from the tighter ones are absent from the others.
  cases hbl : b.lower with
  | none =>
      cases hbu : b.upper with
      | none => rfl
      | some u =>
          rcases hupper u hbu with ⟨u', hu', hle⟩
          rw [hu']
          cases c.lower <;> simp only [Option.elim_some, Option.elim_none] <;> grind
  | some l =>
      rcases hlower l hbl with ⟨l', hl', hle⟩
      rw [hl']
      cases hbu : b.upper with
      | none => cases c.upper <;> simp only [Option.elim_some, Option.elim_none] <;> grind
      | some u =>
          rcases hupper u hbu with ⟨u', hu', hle'⟩
          rw [hu']
          simp only [Option.elim_some]
          grind

theorem place_repair (hb : b.hasNaN = false) (hx : IsNumber x) :
    IsNumber (b.repair x) ∧ place (b.repair x) = b.clampPlace (place x) := by
  have hclamp := place_clamp hb hx
  simp only [repair]
  by_cases heq : (b.clamp x == x) = true
  · rw [if_pos heq, ← hclamp.2]
    exact ⟨hx, (beq_iff.mp heq).2.2.symm⟩
  · rw [if_neg heq]
    exact hclamp

end Bounds

end Presolve
