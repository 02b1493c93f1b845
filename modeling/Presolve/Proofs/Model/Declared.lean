import Presolve.Proofs.Fold.Causes
import Presolve.Proofs.Model.Numbers

/-!
# Bounds Given at Once and One by One

A variable can come with its bounds, or it can come free and be given them afterwards. The
two ways part at the infinities. Bounds that come with a variable lose both of them on
either side, while a bound that is set loses only the one that restricts nothing there. The
other infinity leaves no finite value, and it is kept.

So the two ways end in one model unless a bound is an infinity of that other kind. In that
case the side is open if the bound was given at once, and closed to every finite value if it
was set, and a run that follows finds two different models.

All of this is about the variable that the new id names, so it takes a registry that has not
outgrown its ids. Beyond that the id of a new variable names an old one, and it is the old
one that is given the bounds.

## Main definitions

* `Bounds.dropUnbounding`: Only what restricts something is kept.

## Theorems

* `Side.excludes_iff`: An infinity excludes every finite value or restricts nothing.
* `Model.setBounds_eq`: Setting both bounds of a variable.
* `Model.adjusted_eq_declared_iff`: When the two ways end in one model.
* `Model.declared_ne_adjusted`: They need not.
-/

namespace Presolve

open Scalar

variable {α : Type} [Scalar α]

/-- Take the infinities that restrict nothing for absent sides. -/
def Bounds.dropUnbounding (b : Bounds α) : Bounds α where
  lower := b.lower.filter (!Side.lower.isUnbounding ·)
  upper := b.upper.filter (!Side.upper.isUnbounding ·)

theorem Bounds.get_dropInfinite (b : Bounds α) (s : Side) :
    b.dropInfinite.get s = (b.get s).filter (!isInfinite ·) := by
  cases s <;> rfl

theorem Bounds.get_dropUnbounding (b : Bounds α) (s : Side) :
    b.dropUnbounding.get s = (b.get s).filter (!s.isUnbounding ·) := by
  cases s <;> rfl

omit [Scalar α] in
theorem Bounds.ext_get {b c : Bounds α} (h : ∀ s : Side, b.get s = c.get s) : b = c := by
  rcases b with ⟨l, u⟩
  rcases c with ⟨l', u'⟩
  have hlower : l = l' := h .lower
  have hupper : u = u' := h .upper
  rw [hlower, hupper]

namespace Model

variable {m : Model α} {id : VariableId} {v : Variable α} {b : Bounds α}

/-- A free variable can always be added. -/
theorem addVariable_free (m : Model α) :
    m.addVariable {} = .ok (Id.ofIndex m.vars.size, { m with vars := m.vars.push {} }) := rfl

theorem setBound_eq_ok (hv : m.variableAt id = .ok v) (side : Side) {x : Option α}
    (hx : ∀ a ∈ x, IsNumber a) :
    m.setBound id side x = .ok (m.modifyVariable id fun v =>
      { v with bounds := v.bounds.set side (x.filter (!side.isUnbounding ·)) }) := by
  have hnan : x.any isNaN = false := by
    cases x with
    | none => rfl
    | some a => exact hx a rfl
  rw [setBound, hv]
  change (if x.any isNaN = true then _ else _) = _
  rw [hnan, if_neg Bool.false_ne_true]
  rfl

/-- Setting both bounds of a variable replaces them, whatever they were. -/
theorem setBounds_eq (hv : m.variableAt id = .ok v) (hb : b.hasNaN = false) :
    ∃ half, m.setBound id .lower b.lower = .ok half ∧
      half.setBound id .upper b.upper
        = .ok (m.modifyVariable id fun v => { v with bounds := b.dropUnbounding }) := by
  have hnumber := (Bounds.hasNaN_iff b).mp hb
  refine ⟨_, setBound_eq_ok hv .lower (hnumber .lower), ?_⟩
  refine (setBound_eq_ok (variableAt_modifyVariable_self _ hv) .upper (hnumber .upper)).trans ?_
  rw [modifyVariable_modifyVariable]
  rfl

omit [Scalar α] in
/-- A change of the variable that was added last is a change before it is added. -/
theorem modifyVariable_push (hid : id.index = m.vars.size) (v : Variable α)
    (f : Variable α → Variable α) :
    ({ m with vars := m.vars.push v } : Model α).modifyVariable id f
      = { m with vars := m.vars.push (f v) } := by
  have hvars : (m.vars.push v).modify id.index f = m.vars.push (f v) := by
    refine Array.ext_getElem? fun i => ?_
    rw [Array.getElem?_modify, Array.getElem?_push, Array.getElem?_push, hid]
    by_cases hi : i = m.vars.size
    · rw [if_pos hi.symm, if_pos hi, if_pos hi, Option.map_some]
    · rw [if_neg fun h => hi h.symm, if_neg hi, if_neg hi]
  rw [modifyVariable, hvars]

end Model

section Ordered

variable [OrderedScalar α]

/-- An infinity excludes every finite value on a side unless it restricts nothing there. -/
theorem Side.excludes_iff {s : Side} {x : α} (h : isInfinite x = true) :
    s.Excludes x ↔ s.isUnbounding x = false := by
  cases s with
  | lower =>
      rw [Excludes, isUnbounding, h, Bool.true_and, decide_eq_false_iff_not]
      exact ⟨fun hx => OrderedScalar.not_lt_of_lt hx.2,
        fun hx => ⟨rfl, (OrderedScalar.infinite_pos_or_neg h).resolve_right hx⟩⟩
  | upper =>
      rw [Excludes, isUnbounding, h, Bool.true_and, decide_eq_false_iff_not]
      exact ⟨fun hx => OrderedScalar.not_lt_of_lt hx.2,
        fun hx => ⟨rfl, (OrderedScalar.infinite_pos_or_neg h).resolve_left hx⟩⟩

namespace Bounds

variable {b : Bounds α} {s : Side} {x : α}

/-- A pair without NaN among its finite numbers has none at all. -/
theorem hasNaN_of_dropInfinite (h : b.dropInfinite.hasNaN = false) : b.hasNaN = false := by
  rw [hasNaN_iff] at h ⊢
  intro s x hx
  cases hinfinite : isInfinite x with
  | true => exact OrderedScalar.isNumber_of_infinite hinfinite
  | false =>
      refine h s x ?_
      rw [get_dropInfinite, Option.mem_filter_iff, hinfinite]
      exact ⟨hx, rfl⟩

/-- On a side closed to every finite value the bound is dropped if it is given at once and
    kept if it is set. -/
theorem get_of_excludes (hx : x ∈ b.get s) (h : s.Excludes x) :
    b.dropInfinite.get s = none ∧ b.dropUnbounding.get s = some x := by
  have hinfinite : isInfinite x = true := by
    cases s
    · exact h.1
    · exact h.1
  rw [get_dropInfinite, get_dropUnbounding, Option.mem_def.mp hx, Option.filter_some,
    Option.filter_some, hinfinite, (Side.excludes_iff hinfinite).mp h]
  exact ⟨rfl, rfl⟩

/-- Any other side is the same either way. -/
theorem get_dropUnbounding_eq (h : ∀ x ∈ b.get s, ¬ s.Excludes x) :
    b.dropUnbounding.get s = b.dropInfinite.get s := by
  rw [get_dropInfinite, get_dropUnbounding]
  cases hx : b.get s with
  | none => rfl
  | some x =>
      have hdropped : s.isUnbounding x = isInfinite x := by
        cases hinfinite : isInfinite x with
        | false => exact s.isUnbounding_of_not_infinite hinfinite
        | true =>
            rw [← Bool.not_eq_false, ← Side.excludes_iff hinfinite]
            exact h x hx
      rw [Option.filter_some, Option.filter_some, hdropped]

end Bounds

namespace Model

variable {m declared : Model α} {id : VariableId} {b : Bounds α}

/-- A variable that is added free and then given its bounds comes to the variable that is
    added with them unless one of them is an infinity that leaves no finite value. Such a
    bound is dropped in the one case and kept in the other. -/
theorem adjusted_eq_declared_iff (hsize : m.vars.size < UInt32.size)
    (h : m.addVariable { bounds := b } = .ok (id, declared)) :
    ∃ free half adjusted, m.addVariable {} = .ok (id, free) ∧
      free.setBound id .lower b.lower = .ok half ∧
      half.setBound id .upper b.upper = .ok adjusted ∧
      (adjusted = declared ↔ ∀ s : Side, ∀ x ∈ b.get s, ¬ s.Excludes x) ∧
      ∃ v w, declared.variableAt id = .ok v ∧ adjusted.variableAt id = .ok w ∧
        ∀ s : Side, ((∀ x ∈ b.get s, ¬ s.Excludes x) → w.bounds.get s = v.bounds.get s) ∧
          ∀ x ∈ b.get s, s.Excludes x → v.bounds.get s = none ∧ w.bounds.get s = some x := by
  rcases addVariable_eq_ok h with ⟨hnan, -, -, -, hadded⟩
  rcases Prod.mk.inj hadded with ⟨rfl, rfl⟩
  have hindex : (Id.ofIndex m.vars.size : VariableId).index = m.vars.size :=
    Id.index_ofIndex hsize
  have hlast (v : Variable α) :
      ({ m with vars := m.vars.push v } : Model α).variableAt (Id.ofIndex m.vars.size)
        = .ok v := by
    rw [variableAt_eq_ok, hindex]
    exact Array.getElem?_push_size
  rcases setBounds_eq (hlast {}) (Bounds.hasNaN_of_dropInfinite hnan) with ⟨half, hlower, hupper⟩
  rw [modifyVariable_push hindex] at hupper
  refine ⟨_, half, _, addVariable_free m, hlower, hupper, ⟨fun hsame => ?_, fun hfree => ?_⟩,
    _, _, hlast _, hlast _, fun s => ⟨Bounds.get_dropUnbounding_eq, fun x => Bounds.get_of_excludes⟩⟩
  · -- In one model the variable has one pair of bounds.
    have hbounds : b.dropUnbounding = b.dropInfinite := by
      have hat := (congrArg (·.variableAt (Id.ofIndex m.vars.size)) hsame).trans (hlast _)
      exact congrArg Variable.bounds (Except.ok.inj ((hlast _).symm.trans hat))
    intro s x hx hexcludes
    rcases Bounds.get_of_excludes hx hexcludes with ⟨hnone, hsome⟩
    rw [hbounds, hnone] at hsome
    cases hsome
  · rw [Bounds.ext_get fun s => Bounds.get_dropUnbounding_eq (hfree s)]

/-- A lower bound of negative infinity is dropped either way, and the second variable of a
    model comes to one entry. -/
theorem adjusted_eq_declared_unbounding :
    ∃ (m declared free half adjusted : Model Float),
      m = (Model.empty : Model Float).after [.addVariable {}] ∧ m.vars.size < UInt32.size ∧
      m.addVariable { bounds := ⟨some (-1 / 0), some 5⟩ } = .ok (⟨1⟩, declared) ∧
      m.addVariable {} = .ok (⟨1⟩, free) ∧
      free.setBound ⟨1⟩ .lower (some (-1 / 0)) = .ok half ∧
      half.setBound ⟨1⟩ .upper (some 5) = .ok adjusted ∧ adjusted = declared ∧
      declared.vars.toList.map (fun v => (v.bounds.lower, v.bounds.upper))
        = [(none, none), (none, some 5)] := by
  set m := (Model.empty : Model Float).after [.addVariable {}] with hm
  set b : Bounds Float := ⟨some (-1 / 0), some 5⟩ with hb
  have hsize : m.vars.size < UInt32.size := by decide +kernel
  have hadd : m.addVariable { bounds := b }
      = .ok (⟨1⟩, { m with vars := m.vars.push { bounds := b.dropInfinite } }) := by rfl
  have hopen : ∀ s : Side, ∀ x ∈ b.get s, ¬ s.Excludes x := by
    rintro (_ | _) x hx hexcludes
    · cases hx
      exact absurd hexcludes.2 (by decide +kernel)
    · cases hx
      exact absurd hexcludes.2 (by decide +kernel)
  rcases adjusted_eq_declared_iff hsize hadd with
    ⟨free, half, adjusted, hfree, hlower, hupper, hiff, -⟩
  exact ⟨m, _, free, half, adjusted, rfl, hsize, hadd, hfree, hlower, hupper, hiff.mpr hopen,
    by decide +kernel⟩

omit [OrderedScalar α] in
theorem size_vars_after_replicate (m : Model α) (n : Nat) :
    (m.after (List.replicate n (.addVariable {}))).vars.size = m.vars.size + n := by
  induction n generalizing m with
  | zero => rfl
  | succ n ih =>
      rw [List.replicate_succ, after, List.foldl_cons]
      refine (ih _).trans ?_
      change (m.vars.push {}).size + n = _
      rw [Array.size_push]
      omega

/-- The two ways can end in different models. A lower bound of positive infinity is dropped
    if the variable comes with it. If it is set it stays, and a constraint `x ≥ 3` that is
    folded later changes the bound in the one model alone. In a model with as many variables
    as there are ids a new variable has the id of the first one, which is given the bound in
    its place. -/
theorem declared_ne_adjusted :
    (∃ declared free half adjusted : Model Float,
      (Model.empty : Model Float).addVariable { bounds := ⟨some (1 / 0), none⟩ }
        = .ok (⟨0⟩, declared) ∧
      (Model.empty : Model Float).addVariable {} = .ok (⟨0⟩, free) ∧
      free.setBound ⟨0⟩ .lower (some (1 / 0)) = .ok half ∧
      half.setBound ⟨0⟩ .upper none = .ok adjusted ∧
      declared.vars.toList.map (·.bounds.lower) = [none] ∧
      adjusted.vars.toList.map (·.bounds.lower) = [some (1 / 0)] ∧
      (declared.after [.addConstraintTo rootBlock (.term ⟨0⟩ 1) ⟨some 3, none⟩,
        .run .standard]).vars.toList.map (·.bounds.lower) = [some 3] ∧
      (adjusted.after [.addConstraintTo rootBlock (.term ⟨0⟩ 1) ⟨some 3, none⟩,
        .run .standard]).vars.toList.map (·.bounds.lower) = [some (1 / 0)]) ∧
    ∃ m declared free half adjusted : Model Float,
      m = (Model.empty : Model Float).after (List.replicate UInt32.size (.addVariable {})) ∧
      m.addVariable { bounds := ⟨some 1, none⟩ } = .ok (⟨0⟩, declared) ∧
      m.addVariable {} = .ok (⟨0⟩, free) ∧
      free.setBound ⟨0⟩ .lower (some 1) = .ok half ∧ half.setBound ⟨0⟩ .upper none = .ok adjusted ∧
      declared.vars[UInt32.size]?.map (·.bounds.lower) = some (some 1) ∧
      adjusted.vars[UInt32.size]?.map (·.bounds.lower) = some none := by
  constructor
  · exact ⟨_, _, _, _, rfl, rfl, rfl, rfl, by decide +kernel, by decide +kernel,
      by decide +kernel, by decide +kernel⟩
  · set m := (Model.empty : Model Float).after (List.replicate UInt32.size (.addVariable {}))
      with hm
    have hsize : m.vars.size = UInt32.size :=
      (size_vars_after_replicate _ _).trans (Nat.zero_add _)
    have hid : (Id.ofIndex m.vars.size : VariableId) = ⟨0⟩ := by
      rw [hsize]
      rfl
    have hlt : 0 < (m.vars.push {}).size := by
      rw [Array.size_push]
      exact Nat.succ_pos _
    -- The id of the new variable is that of the first one, which has an entry.
    have hfirst : ({ m with vars := m.vars.push {} } : Model Float).variableAt ⟨0⟩
        = .ok (m.vars.push {})[0] :=
      variableAt_eq_ok.mpr (Array.getElem?_eq_getElem hlt)
    have hadd : m.addVariable { bounds := ⟨some 1, none⟩ }
        = .ok (Id.ofIndex m.vars.size,
          { m with vars := m.vars.push { bounds := ⟨some 1, none⟩ } }) := by
      rfl
    have hfree := addVariable_free m
    rw [hid] at hadd hfree
    rcases setBounds_eq (b := ⟨some 1, none⟩) hfirst (by decide +kernel) with
      ⟨half, hlower, hupper⟩
    refine ⟨m, _, _, half, _, rfl, hadd, hfree, hlower, hupper, ?_, ?_⟩
    · rw [← hsize, Array.getElem?_push_size]
      rfl
    · rw [vars_modifyVariable, if_neg (by decide), ← hsize, Array.getElem?_push_size]
      rfl

end Model

end Ordered

end Presolve
