import Presolve.Model.Tree
import Presolve.Proofs.Model.Structure

/-!
# Paths of Blocks

The path of a block is found on the way up. A loop starts at the block, writes down a name
and goes on to the parent until it comes to the root, and then it turns the list of names
around. Nothing in the loop counts, so it ends only because a parent is older than its
children, and it fails only if there is no block to start from, because a parent is always
one of the blocks.

A path tells blocks apart if the names in it can be told apart, which takes names without
dots and names that are not empty. The names on the way down from the root then lead to one
block only, step by step: two blocks with one parent are siblings, and siblings differ in
their names.

Of the registries only that of the blocks has to have kept within its ids.

## Main definitions

* `Climb`, `Climb.step`: The loop that finds a path, under way.
* `Climb.Ends`: What the loop comes to.
* `Model.Branched`: What is known of the blocks of a model.
* `Model.Plain`: No name has a dot in it or is empty.
* `Model.Pathed`: What is known of the paths of a model.

## Theorems

* `Climb.Ends.unique`: The loop comes to one result.
* `Model.Reachable.branched`: The blocks of a reachable model.
* `Model.Lineage.ends`, `Model.Lineage.namesTo_eq`: The names that are found.
* `Model.Lineage.eq_of_names`: The names lead to one block.
* `intercalate_dot_inj`: Joined names can be told apart.
* `Model.Reachable.pathed`: Paths of reachable models.
-/

namespace Presolve

variable {α : Type}

/-- The loop that finds a path, under way. -/
structure Climb where
  /-- The block to look at next. -/
  current : BlockId
  /-- The names so far, that of the deepest block first. -/
  segments : List String := []

namespace Climb

/-- Write down the name of a block and go on to its parent. -/
def step (m : Model α) (c : Climb) : Except (ModelError α) Climb := do
  let b ← m.blockAt c.current
  return ⟨b.parent.getD rootBlock, c.segments ++ [b.name]⟩

/-- The loop ends with a result: it has come to the root, or to a block that the model does
    not have. -/
inductive Ends (m : Model α) : Climb → Except (ModelError α) (List String) → Prop
  | root {c : Climb} : c.current = rootBlock → Ends m c (.ok c.segments)
  | fault {c : Climb} {e : ModelError α} :
      c.current ≠ rootBlock → c.step m = .error e → Ends m c (.error e)
  | step {c c' : Climb} {result : Except (ModelError α) (List String)} :
      c.current ≠ rootBlock → c.step m = .ok c' → Ends m c' result → Ends m c result

variable {m : Model α} {c : Climb} {id : BlockId} {b : Block}

theorem step_of_block (hb : m.blockAt id = .ok b) (segments : List String) :
    step m ⟨id, segments⟩ = .ok ⟨b.parent.getD rootBlock, segments ++ [b.name]⟩ := by
  rw [step, hb]
  rfl

/-- The loop comes to one result. -/
theorem Ends.unique {result result' : Except (ModelError α) (List String)}
    (h : Ends m c result) (h' : Ends m c result') : result' = result := by
  induction h with
  | root hroot =>
      cases h' with
      | root => rfl
      | fault hne => exact absurd hroot hne
      | step hne => exact absurd hroot hne
  | fault hne hstep =>
      cases h' with
      | root hroot => exact absurd hroot hne
      | fault _ hstep' => exact congrArg Except.error (Except.error.inj (hstep'.symm.trans hstep))
      | step _ hstep' => cases hstep.symm.trans hstep'
  | step hne hstep _ ih =>
      cases h' with
      | root hroot => exact absurd hroot hne
      | fault _ hstep' => cases hstep.symm.trans hstep'
      | step _ hstep' hends =>
          rcases Except.ok.inj (hstep.symm.trans hstep') with rfl
          exact ih hends

end Climb

namespace Model

variable {m m' : Model α} {id id' parent : BlockId} {b : Block} {names names' : List String}

/-- What is known of the blocks of a model, whatever is known of its other entries. -/
structure Branched (m : Model α) : Prop where
  root : 0 < m.blocks.size
  tree : m.Treelike
  listed : m.Listed
  distinct : m.Distinct

theorem branched_empty : (empty : Model α).Branched :=
  ⟨Nat.one_pos, treelike_empty, listed_empty, distinct_empty⟩

theorem Branched.change [Scalar α] (h : m.Branched) (hsize : m.blocks.size < UInt32.size)
    (hchange : Change m m') : m'.Branched where
  root := h.root.trans_le hchange.size_le.2.2
  tree := h.tree.change hsize hchange
  listed := h.listed.change hchange
  distinct := h.distinct.change h.tree hsize hchange

/-- The blocks of a reachable model are as they should be as long as there are fewer of them
    than ids. -/
theorem Reachable.branched [Scalar α] (h : m.Reachable) (hsize : m.blocks.size < UInt32.size) :
    m.Branched := by
  refine h.induction (P := fun m => m.blocks.size < UInt32.size → m.Branched)
    (fun _ => branched_empty) ?_ hsize
  intro a b hchange ih hb
  have ha := hchange.size_le.2.2.trans_lt hb
  exact (ih ha).change ha hchange

theorem blockAt_eq_error {e : ModelError α} :
    m.blockAt id = .error e ↔ (∀ b, m.blockAt id ≠ .ok b) ∧ e = .unknownBlock id := by
  rw [blockAt]
  cases m.blocks[id.index]? with
  | none => simp [eq_comm]
  | some b => simp

theorem Branched.exists_root (h : m.Branched) : ∃ b, m.blockAt rootBlock = .ok b :=
  ⟨_, blockAt_eq_ok.mpr (Array.getElem?_eq_getElem h.root)⟩

/-- A block that names a parent is not the root. -/
theorem Branched.ne_root (h : m.Branched) (hb : m.blockAt id = .ok b)
    (hparent : b.parent = some parent) : id ≠ rootBlock := by
  rintro rfl
  rw [h.tree.root b (blockAt_eq_ok.mp hb)] at hparent
  cases hparent

/-- A block other than the root has an older parent. -/
theorem Branched.exists_parent (h : m.Branched) (hb : m.blockAt id = .ok b)
    (hne : id ≠ rootBlock) :
    ∃ parent p, b.parent = some parent ∧ m.blockAt parent = .ok p ∧ parent.index < id.index := by
  have hget := blockAt_eq_ok.mp hb
  rcases h.tree.parent _ b hget fun hzero => hne (Id.index_inj hzero) with ⟨parent, hparent, hlt⟩
  have hsize := hlt.trans (Array.getElem?_eq_some_iff.mp hget).1
  exact ⟨parent, _, hparent, blockAt_eq_ok.mpr (Array.getElem?_eq_getElem hsize), hlt⟩

theorem Branched.index_lt (h : m.Branched) (hb : m.blockAt id = .ok b)
    (hparent : b.parent = some parent) : parent.index < id.index := by
  rcases h.exists_parent hb (h.ne_root hb hparent) with ⟨q, _, hq, -, hlt⟩
  rwa [Option.some.inj (hparent.symm.trans hq)]

/-- Every block is on a way down from the root. -/
theorem Branched.exists_lineage (h : m.Branched) (hb : m.blockAt id = .ok b) :
    ∃ names, m.Lineage id names := by
  -- The induction is on the position, as parents are older.
  induction hi : id.index using Nat.strong_induction_on generalizing id b with
  | _ i ih =>
      subst hi
      by_cases hroot : id = rootBlock
      · subst hroot
        exact ⟨[], .root⟩
      · rcases h.exists_parent hb hroot with ⟨parent, p, hparent, hp, hlt⟩
        rcases ih parent.index hlt hp rfl with ⟨names, hnames⟩
        exact ⟨_, .child hb hparent hnames⟩

/-- The loop meets the names on the way down from the root in reverse. -/
theorem Lineage.ends (h : m.Branched) (hnames : m.Lineage id names) (segments : List String) :
    Climb.Ends m ⟨id, segments⟩ (.ok (segments ++ names.reverse)) := by
  -- The names that the loop has written down already change from one block to the next.
  induction hnames generalizing segments with
  | root =>
      rw [List.reverse_nil, List.append_nil]
      exact .root rfl
  | @child id parent b names hb hparent _ ih =>
      have hrest := ih (segments ++ [b.name])
      rw [List.append_assoc, List.singleton_append, ← List.reverse_concat] at hrest
      refine .step (h.ne_root hb hparent) (Climb.step_of_block hb segments) ?_
      rw [hparent]
      exact hrest

/-- Following parents finds the names on the way down from the root, given steps enough. -/
theorem Lineage.namesTo_eq (h : m.Branched) (hnames : m.Lineage id names) {steps : Nat}
    (hlt : id.index < steps) : m.namesTo steps id = .ok names := by
  induction hnames generalizing steps with
  | root =>
      cases steps with
      | zero => exact absurd hlt (Nat.not_lt_zero _)
      | succ steps => rw [namesTo, if_pos rfl]
  | child hb hparent _ ih =>
      cases steps with
      | zero => exact absurd hlt (Nat.not_lt_zero _)
      | succ steps =>
          have hup := (h.index_lt hb hparent).trans_le (Nat.lt_succ_iff.mp hlt)
          rw [namesTo, if_neg (h.ne_root hb hparent), hb]
          change (m.namesTo steps (Option.getD _ rootBlock) >>= _) = _
          rw [hparent, Option.getD_some, ih hup]
          rfl

/-- A block on a way down from the root is one of the blocks. -/
theorem Lineage.exists_block (h : m.Branched) (hnames : m.Lineage id names) :
    ∃ b, m.blockAt id = .ok b := by
  cases hnames with
  | root => exact h.exists_root
  | child hb => exact ⟨_, hb⟩

/-- Two blocks with one parent and one name are one block. -/
theorem Branched.eq_of_name (h : m.Branched) {b' : Block} (hb : m.blockAt id = .ok b)
    (hb' : m.blockAt id' = .ok b') (hparent : b.parent = some parent)
    (hparent' : b'.parent = some parent) (hname : b'.name = b.name) : id' = id := by
  rcases h.listed.mem_children hb hparent with ⟨p, hp, hmem⟩
  rcases h.listed.mem_children hb' hparent' with ⟨p', hp', hmem'⟩
  rcases Except.ok.inj (hp.symm.trans hp') with rfl
  refine List.inj_on_of_nodup_map (h.distinct _ p (blockAt_eq_ok.mp hp)) hmem' hmem ?_
  rw [blockName?, blockName?, blockAt_eq_ok.mp hb, blockAt_eq_ok.mp hb', Option.map_some,
    Option.map_some, hname]

/-- The names on the way down lead to one block. -/
theorem Lineage.eq_of_names (h : m.Branched) (hnames : m.Lineage id names)
    (hnames' : m.Lineage id' names') (hsame : names' = names) : id' = id := by
  -- The last names belong to the blocks themselves, and those before them to their parents.
  induction hnames generalizing id' names' with
  | root =>
      cases hnames' with
      | root => rfl
      | child => exact absurd hsame (List.append_ne_nil_of_right_ne_nil _ (List.cons_ne_nil _ _))
  | child hb hparent _ ih =>
      cases hnames' with
      | root =>
          exact absurd hsame.symm (List.append_ne_nil_of_right_ne_nil _ (List.cons_ne_nil _ _))
      | child hb' hparent' hup' =>
          rcases List.append_inj' hsame rfl with ⟨habove, hlast⟩
          rcases ih hup' habove with rfl
          exact h.eq_of_name hb hb' hparent hparent' (List.cons.inj hlast).1

end Model

/-- The name is not empty and has no dot in it. -/
def PlainName (name : String) : Prop := name ≠ "" ∧ '.' ∉ name.toList

instance (name : String) : Decidable (PlainName name) := inferInstanceAs (Decidable (_ ∧ _))

theorem eq_nil_of_intercalate_dot {names : List String} (hplain : ∀ n ∈ names, PlainName n)
    (h : ".".intercalate names = "") : names = [] := by
  cases names with
  | nil => rfl
  | cons n rest =>
      -- What is joined starts with the first name, which is not empty.
      have hfirst : n = "" := by
        cases rest with
        | nil => rwa [String.intercalate_singleton] at h
        | cons n' rest =>
            rw [String.intercalate_cons_cons, String.append_assoc] at h
            exact (String.append_eq_empty_iff.mp h).1
      exact absurd hfirst (hplain n List.mem_cons_self).1

/-- Names that are plain can be told apart after they were joined with dots. -/
theorem intercalate_dot_inj {names names' : List String} (hplain : ∀ n ∈ names, PlainName n)
    (hplain' : ∀ n ∈ names', PlainName n)
    (h : ".".intercalate names' = ".".intercalate names) : names' = names := by
  by_cases hnil : names = []
  · subst hnil
    exact eq_nil_of_intercalate_dot hplain' h
  · by_cases hnil' : names' = []
    · subst hnil'
      exact absurd (eq_nil_of_intercalate_dot hplain h.symm) hnil
    · -- Splitting at the dots gives the names back.
      have hsplit {ns : List String} (hns : ∀ n ∈ ns, PlainName n) (hne : ns ≠ []) :
          (".".intercalate ns).toList.splitOn '.' = ns.map String.toList := by
        rw [String.toList_intercalate]
        refine List.splitOn_intercalate '.' (fun l hl => ?_) fun hmap =>
          hne (List.map_eq_nil_iff.mp hmap)
        rcases List.mem_map.mp hl with ⟨n, hn, rfl⟩
        exact (hns n hn).2
      refine (List.map_inj_right fun _ _ => String.toList_inj.mp).mp ?_
      rw [← hsplit hplain' hnil', ← hsplit hplain hnil, h]

namespace Model

variable {m : Model α} {id : BlockId} {b : Block} {names : List String}

/-- All blocks but the root have plain names. -/
def Plain (m : Model α) : Prop :=
  ∀ id b, m.blockAt id = .ok b → id ≠ rootBlock → PlainName b.name

theorem Lineage.plain (h : m.Branched) (hplain : m.Plain) (hnames : m.Lineage id names) :
    ∀ n ∈ names, PlainName n := by
  induction hnames with
  | root => exact fun n hn => absurd hn List.not_mem_nil
  | child hb hparent _ ih =>
      intro n hn
      rcases List.mem_append.mp hn with hn | hn
      · exact ih n hn
      · rw [List.mem_singleton.mp hn]
        exact hplain _ _ hb (h.ne_root hb hparent)

/-- What is known of the paths of a model. -/
structure Pathed (m : Model α) : Prop where
  /-- The loop ends for every id, and its names make the path. -/
  ends : ∀ id, ∃ result, (∀ r, Climb.Ends m ⟨id, []⟩ r ↔ r = result) ∧
    m.blockPath id = result.map fun segments => ".".intercalate segments.reverse
  error : ∀ id e, m.blockPath id = .error e ↔
    (∀ b, m.blockAt id ≠ .ok b) ∧ e = .unknownBlock id
  /-- There is one way down from the root, and the path joins the names on it. -/
  ok : ∀ id b, m.blockAt id = .ok b → ∃ names, (∀ ns, m.Lineage id ns ↔ ns = names) ∧
    m.blockPath id = .ok (".".intercalate names)
  root : m.blockPath rootBlock = .ok ""
  distinct : m.Plain → ∀ id id' path, m.blockPath id = .ok path → m.blockPath id' = .ok path →
    id' = id

theorem Lineage.index_lt_size (h : m.Branched) (hnames : m.Lineage id names) :
    id.index < m.blocks.size + 1 := by
  rcases hnames.exists_block h with ⟨b, hb⟩
  exact (Array.getElem?_eq_some_iff.mp (blockAt_eq_ok.mp hb)).1.trans (Nat.lt_succ_self _)

theorem Lineage.blockPath_eq (h : m.Branched) (hnames : m.Lineage id names) :
    m.blockPath id = .ok (".".intercalate names) := by
  rw [blockPath, hnames.namesTo_eq h (hnames.index_lt_size h)]
  rfl

theorem Lineage.unique (h : m.Branched) (hnames : m.Lineage id names) {ns : List String}
    (hns : m.Lineage id ns) : ns = names := by
  have hlt := hnames.index_lt_size h
  exact Except.ok.inj ((hns.namesTo_eq h hlt).symm.trans (hnames.namesTo_eq h hlt))

/-- The loop stops at once at an id that is no block, and so does the search for names. -/
theorem Branched.ends_of_unknown (h : m.Branched) (hid : m.blockAt id = .error (.unknownBlock id)) :
    Climb.Ends m ⟨id, []⟩ (.error (.unknownBlock id)) ∧
      m.blockPath id = .error (.unknownBlock id) := by
  have hne : id ≠ rootBlock := by
    rintro rfl
    rcases h.exists_root with ⟨b, hb⟩
    cases hid.symm.trans hb
  constructor
  · refine .fault hne ?_
    rw [Climb.step, hid]
    rfl
  · rw [blockPath, namesTo, if_neg hne, hid]
    rfl

/-- A path joins the names on a way down from the root. -/
theorem Branched.exists_lineage_of_path (h : m.Branched) {path : String}
    (hpath : m.blockPath id = .ok path) :
    ∃ names, m.Lineage id names ∧ path = ".".intercalate names := by
  cases hid : m.blockAt id with
  | ok b =>
      rcases h.exists_lineage hid with ⟨names, hnames⟩
      exact ⟨names, hnames, Except.ok.inj (hpath.symm.trans (hnames.blockPath_eq h))⟩
  | error e =>
      rcases (blockAt_eq_error.mp hid).2 with rfl
      cases hpath.symm.trans (h.ends_of_unknown hid).2

theorem pathed_of_branched (h : m.Branched) : m.Pathed where
  ends id := by
    cases hid : m.blockAt id with
    | ok b =>
        rcases h.exists_lineage hid with ⟨names, hnames⟩
        have hends := hnames.ends h []
        rw [List.nil_append] at hends
        refine ⟨_, fun r => ⟨hends.unique, fun hr => hr ▸ hends⟩, ?_⟩
        rw [hnames.blockPath_eq h, Except.map, List.reverse_reverse]
    | error e =>
        rcases (blockAt_eq_error.mp hid).2 with rfl
        rcases h.ends_of_unknown hid with ⟨hends, hpath⟩
        exact ⟨_, fun r => ⟨hends.unique, fun hr => hr ▸ hends⟩, hpath⟩
  error id e := by
    cases hid : m.blockAt id with
    | ok b =>
        rcases h.exists_lineage hid with ⟨names, hnames⟩
        rw [hnames.blockPath_eq h]
        refine ⟨fun he => ?_, fun he => absurd rfl (he.1 b)⟩
        cases he
    | error e' =>
        rcases (blockAt_eq_error.mp hid).2 with rfl
        rw [(h.ends_of_unknown hid).2]
        simp [eq_comm]
  ok id b hb := by
    rcases h.exists_lineage hb with ⟨names, hnames⟩
    exact ⟨names, fun ns => ⟨hnames.unique h, fun hns => hns ▸ hnames⟩, hnames.blockPath_eq h⟩
  root := Lineage.root.blockPath_eq h
  distinct hplain id id' path hpath hpath' := by
    rcases h.exists_lineage_of_path hpath with ⟨names, hnames, hjoined⟩
    rcases h.exists_lineage_of_path hpath' with ⟨names', hnames', hjoined'⟩
    exact hnames.eq_of_names h hnames' (intercalate_dot_inj (hnames.plain h hplain)
      (hnames'.plain h hplain) (hjoined'.symm.trans hjoined))

/-- The paths of a reachable model, as long as it has fewer blocks than ids. -/
theorem Reachable.pathed [Scalar α] (h : m.Reachable) (hsize : m.blocks.size < UInt32.size) :
    m.Pathed :=
  pathed_of_branched (h.branched hsize)

/-- A name that occurs below two blocks, and a block whose name was refused as there is a
    sibling of that name. The path of an id that is no block is refused, and the others are
    different. -/
theorem pathed_nested :
    ∃ m : Model Float,
      m = (Model.empty : Model Float).after [.addBlock rootBlock "plant",
        .addBlock ⟨1⟩ "unit", .addBlock rootBlock "store", .addBlock ⟨3⟩ "unit",
        .addBlock ⟨3⟩ "unit", .addBlock ⟨4⟩ "plant"] ∧
      m.blocks.size < UInt32.size ∧ m.Pathed ∧ m.Plain ∧
      m.blockPath ⟨2⟩ = .ok "plant.unit" ∧ m.blockPath ⟨5⟩ = .ok "store.unit.plant" ∧
      m.blockPath ⟨7⟩ = .error (.unknownBlock ⟨7⟩) := by
  set m := (Model.empty : Model Float).after [.addBlock rootBlock "plant",
    .addBlock ⟨1⟩ "unit", .addBlock rootBlock "store", .addBlock ⟨3⟩ "unit",
    .addBlock ⟨3⟩ "unit", .addBlock ⟨4⟩ "plant"] with hm
  have hsize : m.blocks.size < UInt32.size := by decide +kernel
  have hnames : m.blocks.toList.map Block.name
      = ["", "plant", "unit", "store", "unit", "plant"] := by decide +kernel
  have hplain : m.Plain := by
    intro id b hb hne
    have hname : (m.blocks.toList.map Block.name)[id.index]? = some b.name := by
      rw [List.getElem?_map, Array.getElem?_toList, blockAt_eq_ok.mp hb, Option.map_some]
    rw [hnames] at hname
    cases hi : id.index with
    | zero => exact absurd (Id.index_inj hi) hne
    | succ i =>
        -- All names but the first are plain.
        rw [hi, List.getElem?_cons_succ] at hname
        have hall : ∀ n ∈ ["plant", "unit", "store", "unit", "plant"], PlainName n := by decide
        exact hall _ (List.mem_of_getElem? hname)
  exact ⟨m, rfl, hsize, Reachable.pathed ⟨_, hm.symm⟩ hsize, hplain, by rfl, by rfl, by rfl⟩

end Model

end Presolve
