import FilterRules.Proofs.Rule.Groups
import FilterRules.Proofs.Rule.Scaffold

/-!
# The tree of an item

What the builder makes of a rule list is told by recursion over the items of the list: each item
becomes one more child of the group around it, or the first fault inside it ends the construction.
An item has a tree when no group in it has both connectives or joins a single item.
-/

namespace FilterRules

mutual

/-- The tree of an item whose first rule has the place `index`. -/
def Item.tree (index : Nat) : Item → Except CompileError Tree
  | .criteria criteria => .ok (.leaf criteria)
  | .empty => .ok (.group .and [])
  | .group lead items => do
    let frame ← items.fill (index + 1 + lead.toList.length) ⟨lead, []⟩
    frame.close

/-- An open group with further items, the first of which begins at the place `index`. -/
def Items.fill (index : Nat) (frame : Frame) : Items → Except CompileError Frame
  | .single item => do
    let tree ← item.tree index
    return frame.add tree
  | .joined item connective others => do
    let tree ← item.tree index
    let joined ← (frame.add tree).join connective (index + item.rules.length)
    others.fill (index + item.rules.length + 1) joined

end

namespace Scaffold

/-- A group opens a frame, which takes the connective in front of the items. -/
theorem run_lead (scaffold : Scaffold) (index : Nat) (lead : Option Connective) :
    scaffold.run index (.separator .opening :: lead.toList.map .logical) =
      .ok { scaffold with frames := ⟨lead, []⟩ :: scaffold.frames } := by
  cases lead <;> rfl

mutual

/-- The rules of an item add its tree to a scaffold. -/
theorem run_item (index : Nat) : (item : Item) → (scaffold : Scaffold) →
    (scaffold.frames ≠ [] ∨ item.isGroup) →
    scaffold.run index item.rules = (item.tree index).map scaffold.add
  | .criteria criteria, ⟨roots, []⟩, hplace => by simp [Item.isGroup] at hplace
  | .criteria criteria, ⟨roots, frame :: outer⟩, _ => rfl
  | .empty, ⟨roots, frames⟩, _ => rfl
  | .group lead items, ⟨roots, frames⟩, _ => by
    have hrules : (Item.group lead items).rules =
        (.separator .opening :: lead.toList.map .logical) ++ (items.rules ++
          [.separator .closing]) := by
      simp [Item.rules]
    have hplace : index + (Rule.separator .opening :: lead.toList.map Rule.logical).length =
        index + 1 + lead.toList.length := by
      simp only [List.length_cons, List.length_map]
      omega
    rw [hrules, run_append, run_lead, Outcome.ok_bind, hplace, run_append,
      run_items _ items roots ⟨lead, []⟩ frames, Item.tree]
    cases items.fill (index + 1 + lead.toList.length) ⟨lead, []⟩ with
    | error error => rfl
    | ok frame =>
      simp only [Except.map, Outcome.ok_bind, run, step]
      cases frame.close <;> rfl

/-- The rules of items fill the frame on top of a scaffold. -/
theorem run_items (index : Nat) : (items : Items) → (roots : List Tree) → (frame : Frame) →
    (outer : List Frame) → run ⟨roots, frame :: outer⟩ index items.rules =
      (items.fill index frame).map fun full => ⟨roots, full :: outer⟩
  | .single item, roots, frame, outer => by
    rw [Items.rules, Items.fill, run_item index item _ (Or.inl (by simp))]
    cases item.tree index <;> rfl
  | .joined item connective others, roots, frame, outer => by
    rw [Items.rules, Items.fill, run_append, run_item index item _ (Or.inl (by simp))]
    cases item.tree index with
    | error error => rfl
    | ok tree =>
      simp only [Except.map, Outcome.ok_bind, add, run, step]
      cases (frame.add tree).join connective (index + item.rules.length) with
      | error error => rfl
      | ok joined => exact run_items _ others roots joined outer

end

/-- The rules of groups leave no group open, and one more root for each group. -/
theorem run_groups {index : Nat} {groups : List Item} {roots : List Tree} {scaffold : Scaffold}
    (hgroups : ∀ group ∈ groups, group.isGroup)
    (h : run ⟨roots, []⟩ index (Item.rulesOf groups) = .ok scaffold) :
    scaffold.frames = [] ∧ scaffold.roots.length = roots.length + groups.length := by
  induction groups generalizing index roots with
  | nil =>
    obtain rfl : _ = scaffold := Except.ok.inj h
    exact ⟨rfl, rfl⟩
  | cons group groups ih =>
    have hrules : Item.rulesOf (group :: groups) = group.rules ++ Item.rulesOf groups := rfl
    have hgroup : group.isGroup := hgroups group (by simp)
    rw [hrules, run_append, run_item index group _ (Or.inr hgroup)] at h
    cases htree : group.tree index with
    | error error => simp [htree, Except.map] at h
    | ok tree =>
      rw [htree] at h
      obtain ⟨hframes, hroots⟩ := ih (fun other hother => hgroups other (by simp [hother])) h
      refine ⟨hframes, ?_⟩
      simp only [List.length_append, List.length_cons, List.length_nil] at hroots ⊢
      omega

end Scaffold

/-- The tree of a list that is a single group. -/
theorem Tree.ofRules_item {item : Item} (hgroup : item.isGroup) :
    Tree.ofRules item.rules = item.tree 0 := by
  rw [Tree.ofRules_eq_scaffold, Scaffold.run_item 0 item _ (Or.inr hgroup)]
  cases item.tree 0 <;> rfl

/-- Groups whose rules have a tree are a single group, and the tree is that group's. -/
theorem exists_item_of_groups {groups : List Item} {tree : Tree}
    (hgroups : ∀ group ∈ groups, group.isGroup)
    (htree : Tree.ofRules (Item.rulesOf groups) = .ok tree) :
    ∃ item : Item, groups = [item] ∧ item.isGroup ∧ item.tree 0 = .ok tree := by
  have hscaffold := htree
  rw [Tree.ofRules_eq_scaffold] at hscaffold
  cases hrun : Scaffold.run {} 0 (Item.rulesOf groups) with
  | error error => simp [hrun] at hscaffold
  | ok scaffold =>
    obtain ⟨hframes, hroots⟩ := Scaffold.run_groups hgroups hrun
    obtain ⟨roots, frames⟩ := scaffold
    obtain rfl : frames = [] := hframes
    rw [hrun] at hscaffold
    match groups, roots, hroots with
    | [], [], _ => simp [Scaffold.root] at hscaffold
    | [item], [root], _ =>
      have hitem : item.isGroup := hgroups item (by simp)
      rw [Item.rulesOf_single, Tree.ofRules_item hitem] at htree
      exact ⟨item, rfl, hitem, htree⟩
    | _ :: _ :: _, _ :: _ :: _, _ => simp [Scaffold.root] at hscaffold

/-- A list in order that has a tree is a single group, and its tree is that group's. -/
theorem exists_item_of_ofRules {rules : List Rule} {tree : Tree}
    (horder : checkOrder rules = .ok ()) (htree : Tree.ofRules rules = .ok tree) :
    ∃ item : Item, item.isGroup ∧ item.rules = rules ∧ item.tree 0 = .ok tree := by
  obtain ⟨groups, hgroups, rfl⟩ := exists_groups_of_checkOrder horder
  obtain ⟨item, rfl, hitem, htree⟩ := exists_item_of_groups hgroups htree
  exact ⟨item, hitem, Item.rulesOf_single.symm, htree⟩

mutual

/-- An item and its tree. -/
inductive Item.HasTree : Item → Tree → Prop
  /-- The tree of a comparison. -/
  | criteria (criteria : Criteria) : Item.HasTree (.criteria criteria) (.leaf criteria)
  /-- The tree of a group without items. -/
  | empty : Item.HasTree .empty (.group .and [])
  /-- The tree of a group with one item and no connective. -/
  | lone {item : Item} {tree : Tree} (hitem : item.HasTree tree) :
      Item.HasTree (.group none (.single item)) (.group .and [tree])
  /-- The tree of a group with several items and one connective everywhere. -/
  | joined {lead : Option Connective} {connective : Connective} {item : Item} {others : Items}
      {tree : Tree} {trees : List Tree} (hlead : ∀ found ∈ lead, found = connective)
      (hitem : item.HasTree tree) (hothers : others.HaveTrees connective trees) :
      Item.HasTree (.group lead (.joined item connective others))
        (.group connective (tree :: trees))

/-- The items of a group, with one connective everywhere, and their trees. -/
inductive Items.HaveTrees : Connective → Items → List Tree → Prop
  /-- The last item. -/
  | single {connective : Connective} {item : Item} {tree : Tree} (hitem : item.HasTree tree) :
      Items.HaveTrees connective (.single item) [tree]
  /-- An item and further items. -/
  | joined {connective : Connective} {item : Item} {others : Items} {tree : Tree}
      {trees : List Tree} (hitem : item.HasTree tree)
      (hothers : others.HaveTrees connective trees) :
      Items.HaveTrees connective (.joined item connective others) (tree :: trees)

end

/-- The items of a group have at least one tree. -/
theorem Items.HaveTrees.ne_nil {connective : Connective} {items : Items} {trees : List Tree}
    (h : items.HaveTrees connective trees) : trees ≠ [] := by
  cases h <;> simp

/-- Items have trees with one connective everywhere when each of them has a tree. -/
theorem Items.haveTrees_iff {connective : Connective} : (items : Items) → {trees : List Tree} →
    (items.HaveTrees connective trees ↔ List.Forall₂ Item.HasTree items.toList trees ∧
      ∀ found ∈ items.connectives, found = connective)
  | .single item, trees => by
    constructor
    · rintro (hitem | _)
      exact ⟨.cons hitem .nil, by simp [Items.connectives]⟩
    · rintro ⟨_ | ⟨hitem, _ | _⟩, _⟩
      exact .single hitem
  | .joined item joint others, trees => by
    constructor
    · rintro (_ | ⟨hitem, hothers⟩)
      obtain ⟨htrees, hsame⟩ := (Items.haveTrees_iff others).mp hothers
      exact ⟨.cons hitem htrees, by simpa [Items.connectives] using hsame⟩
    · rintro ⟨_ | ⟨hitem, htrees⟩, hsame⟩
      obtain ⟨rfl, hothers⟩ := List.forall_mem_cons.mp hsame
      exact .joined hitem ((Items.haveTrees_iff others).mpr ⟨htrees, hothers⟩)

/-- A group has a tree when its items have and its connectives are one. Without any connective the group
has one item, and a tree with a conjunction. -/
theorem Item.hasTree_group_iff {lead : Option Connective} {items : Items} {tree : Tree} :
    (Item.group lead items).HasTree tree ↔ ∃ connective trees, tree = .group connective trees ∧
      List.Forall₂ Item.HasTree items.toList trees ∧
      (∀ found ∈ lead, found = connective) ∧ (∀ found ∈ items.connectives, found = connective) ∧
      (items.connectives = [] → lead = none ∧ connective = .and) := by
  constructor
  · rintro (_ | _ | hitem | ⟨hlead, hitem, hothers⟩)
    · exact ⟨.and, _, rfl, .cons hitem .nil, by simp, by simp [Items.connectives], by simp⟩
    · have hitems := (Items.haveTrees_iff _).mp (Items.HaveTrees.joined hitem hothers)
      exact ⟨_, _, rfl, hitems.1, hlead, hitems.2, by simp [Items.connectives]⟩
  · rintro ⟨connective, trees, rfl, htrees, hlead, hsame, hnone⟩
    cases items with
    | single item =>
      obtain ⟨rfl, rfl⟩ := hnone rfl
      rcases htrees with _ | ⟨hitem, _ | _⟩
      exact .lone hitem
    | joined item joint others =>
      rcases (Items.haveTrees_iff _).mpr ⟨htrees, hsame⟩ with _ | ⟨hitem, hothers⟩
      exact .joined hlead hitem hothers

/-- The connectives of a group with one connective everywhere. -/
theorem Items.HaveTrees.connectives {connective : Connective} {items : Items} {trees : List Tree}
    (h : items.HaveTrees connective trees) : ∀ found ∈ items.connectives, found = connective :=
  ((Items.haveTrees_iff items).mp h).2

/-- A connective joins a group exactly if the group has no other one. -/
theorem Frame.join_eq_ok_iff {frame joined : Frame} {connective : Connective} {index : Nat} :
    frame.join connective index = .ok joined ↔
      (∀ found ∈ frame.connective, found = connective) ∧
        joined = ⟨some connective, frame.children⟩ := by
  obtain ⟨found, children⟩ := frame
  cases found with
  | none => simp [Frame.join, eq_comm]
  | some other =>
    by_cases hsame : other = connective
    · simp [Frame.join, hsame, eq_comm]
    · simp [Frame.join, hsame]

/-- A group with a single item has a tree only without a connective. -/
theorem Frame.close_single {lead : Option Connective} {child tree : Tree}
    (h : Frame.close ⟨lead, [child]⟩ = .ok tree) : lead = none ∧ tree = .group .and [child] := by
  cases lead with
  | none =>
    obtain rfl : _ = tree := Except.ok.inj h
    exact ⟨rfl, rfl⟩
  | some connective => simp [Frame.close] at h

mutual

/-- The tree that the builder makes of an item is the item's tree. -/
theorem Item.hasTree_of_tree {index : Nat} : (item : Item) → {tree : Tree} →
    item.tree index = .ok tree → item.HasTree tree
  | .criteria criteria, tree, h => by
    obtain rfl : _ = tree := Except.ok.inj h
    exact .criteria criteria
  | .empty, tree, h => by
    obtain rfl : _ = tree := Except.ok.inj h
    exact .empty
  | .group lead (.single item), tree, h => by
    rw [Item.tree, Items.fill] at h
    obtain ⟨frame, hfill, hclose⟩ := Outcome.bind_eq_ok_iff.mp h
    obtain ⟨child, hchild, hadd⟩ := Outcome.bind_eq_ok_iff.mp hfill
    obtain rfl : _ = frame := Except.ok.inj hadd
    obtain ⟨rfl, rfl⟩ := Frame.close_single hclose
    exact .lone (Item.hasTree_of_tree item hchild)
  | .group lead (.joined item connective others), tree, h => by
    rw [Item.tree, Items.fill] at h
    obtain ⟨frame, hfill, hclose⟩ := Outcome.bind_eq_ok_iff.mp h
    obtain ⟨child, hchild, hrest⟩ := Outcome.bind_eq_ok_iff.mp hfill
    obtain ⟨joined, hjoin, hothers⟩ := Outcome.bind_eq_ok_iff.mp hrest
    obtain ⟨hlead, rfl⟩ := Frame.join_eq_ok_iff.mp hjoin
    obtain ⟨trees, rfl, htrees⟩ := Items.haveTrees_of_fill others hothers
    have hchildren : (Frame.add ⟨lead, []⟩ child).children ++ trees = child :: trees := rfl
    have hmany : ¬ (child :: trees).length < 2 := by
      cases htrees <;> simp
    simp only [Frame.close, hchildren, hmany, decide_false, Bool.and_false, Bool.false_eq_true,
      if_false, Except.ok.injEq] at hclose
    subst hclose
    exact .joined hlead (Item.hasTree_of_tree item hchild) htrees

/-- Filling a group with one connective gives it the trees of its further items. -/
theorem Items.haveTrees_of_fill {index : Nat} {connective : Connective} {front : List Tree} :
    (items : Items) → {full : Frame} → items.fill index ⟨some connective, front⟩ = .ok full →
    ∃ trees, full = ⟨some connective, front ++ trees⟩ ∧ items.HaveTrees connective trees
  | .single item, full, h => by
    rw [Items.fill] at h
    obtain ⟨tree, htree, hadd⟩ := Outcome.bind_eq_ok_iff.mp h
    obtain rfl : _ = full := Except.ok.inj hadd
    exact ⟨[tree], rfl, .single (Item.hasTree_of_tree item htree)⟩
  | .joined item found others, full, h => by
    rw [Items.fill] at h
    obtain ⟨tree, htree, hrest⟩ := Outcome.bind_eq_ok_iff.mp h
    obtain ⟨joined, hjoin, hothers⟩ := Outcome.bind_eq_ok_iff.mp hrest
    obtain ⟨hfound, rfl⟩ := Frame.join_eq_ok_iff.mp hjoin
    obtain rfl : connective = found := hfound connective rfl
    obtain ⟨trees, rfl, htrees⟩ := Items.haveTrees_of_fill others hothers
    refine ⟨tree :: trees, ?_, .joined (Item.hasTree_of_tree item htree) htrees⟩
    simp [Frame.add]

end

mutual

/-- An item that has a tree is built to that tree. -/
theorem Item.HasTree.tree_eq {index : Nat} : {item : Item} → {tree : Tree} → item.HasTree tree →
    item.tree index = .ok tree
  | _, _, .criteria criteria => rfl
  | _, _, .empty => rfl
  | _, _, .lone hitem => by
    rw [Item.tree, Items.fill, Item.HasTree.tree_eq hitem]
    rfl
  | .group lead (.joined item connective others), .group _ (tree :: trees),
      .joined hlead hitem hothers => by
    have hjoin (place : Nat) : Frame.join (Frame.add ⟨lead, []⟩ tree) connective place = .ok _ :=
      Frame.join_eq_ok_iff.mpr ⟨hlead, rfl⟩
    have hmany : ¬ trees.length + 1 < 2 := by
      have hpos := List.length_pos_iff.mpr hothers.ne_nil
      omega
    rw [Item.tree, Items.fill, Item.HasTree.tree_eq hitem, Outcome.ok_bind, hjoin, Outcome.ok_bind,
      Items.HaveTrees.fill_eq hothers, Outcome.ok_bind]
    simp [Frame.close, Frame.add, hmany]

/-- Items that have trees give them to a group with their connective. -/
theorem Items.HaveTrees.fill_eq {index : Nat} {connective : Connective} {front : List Tree} :
    {items : Items} → {trees : List Tree} → items.HaveTrees connective trees →
    items.fill index ⟨some connective, front⟩ = .ok ⟨some connective, front ++ trees⟩
  | _, _, .single hitem => by
    rw [Items.fill, Item.HasTree.tree_eq hitem]
    rfl
  | .joined item _ others, tree :: trees, .joined hitem hothers => by
    have hjoin (place : Nat) :
        Frame.join (Frame.add ⟨some connective, front⟩ tree) connective place = .ok _ :=
      Frame.join_eq_ok_iff.mpr ⟨by simp [Frame.add], rfl⟩
    rw [Items.fill, Item.HasTree.tree_eq hitem, Outcome.ok_bind, hjoin, Outcome.ok_bind,
      Items.HaveTrees.fill_eq hothers]
    simp [Frame.add]

end

/-- The builder makes a tree of an item exactly when the item has that tree. -/
theorem Item.tree_eq_ok_iff {index : Nat} {item : Item} {tree : Tree} :
    item.tree index = .ok tree ↔ item.HasTree tree :=
  ⟨item.hasTree_of_tree, Item.HasTree.tree_eq⟩

end FilterRules
