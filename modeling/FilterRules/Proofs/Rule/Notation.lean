import FilterRules.Proofs.Rule.Building

/-!
# The notation of a tree

A tree is written as the list of its rules: a group as its mark, its items with the group's
connective between each two of them, and the mark at its end. Building the tree of that list gives
the tree back, and writing the tree of a list gives the list back, up to connectives that stand in
front of the first item of a group.
-/

namespace FilterRules

mutual

/-- The rules that write a tree. -/
def Tree.print : Tree → List Rule
  | .leaf criteria => [.criteria criteria]
  | .group connective children =>
    .separator .opening :: (Tree.printItems connective children ++ [.separator .closing])

/-- The rules that write the items of a group. -/
def Tree.printItems (connective : Connective) : List Tree → List Rule
  | [] => []
  | [tree] => tree.print
  | tree :: next :: rest =>
    tree.print ++ .logical connective :: Tree.printItems connective (next :: rest)

end

/-- Whether a tree is a group. -/
def Tree.isGroup : Tree → Bool
  | .leaf _ => false
  | .group _ _ => true

mutual

/-- Every group that has no connective to show, for want of two items, has the one that groups
without a connective get. -/
def Tree.HasDefaults : Tree → Prop
  | .leaf _ => True
  | .group connective children =>
    (children.length < 2 → connective = .and) ∧ Tree.HaveDefaults children

/-- All of some trees have defaults. -/
def Tree.HaveDefaults : List Tree → Prop
  | [] => True
  | tree :: trees => tree.HasDefaults ∧ Tree.HaveDefaults trees

end

/-- A rule list without the connectives that directly follow an opening mark. -/
def withoutLeads : List Rule → List Rule
  | [] => []
  | .separator .opening :: .logical _ :: rest => .separator .opening :: withoutLeads rest
  | rule :: rest => rule :: withoutLeads rest

namespace Scaffold

/-- The frame of a group after further items, with one connective between each two. -/
def filled (connective : Connective) (frame : Frame) (trees : List Tree) : Frame :=
  ⟨if trees.length < 2 then frame.connective else some connective, frame.children ++ trees⟩

/-- A closed group with items that were written with its connective. -/
theorem filled_close {connective : Connective} {trees : List Tree}
    (hdefault : trees.length < 2 → connective = .and) :
    (filled connective ⟨none, []⟩ trees).close = .ok (.group connective trees) := by
  by_cases hfew : trees.length < 2
  · have hand := hdefault hfew
    simp [filled, Frame.close, hfew, hand]
  · simp [filled, Frame.close, hfew]

/-- A connective between two items joins a group that has no other one. -/
theorem run_logical {index : Nat} {roots : List Tree} {frame : Frame} {outer : List Frame}
    {connective : Connective} (hfound : ∀ found ∈ frame.connective, found = connective) :
    run ⟨roots, frame :: outer⟩ index [.logical connective] =
      .ok ⟨roots, ⟨some connective, frame.children⟩ :: outer⟩ := by
  have hjoin : frame.join connective index = .ok ⟨some connective, frame.children⟩ :=
    Frame.join_eq_ok_iff.mpr ⟨hfound, rfl⟩
  simp [run, step, hjoin]

mutual

/-- The rules that write a tree add that tree to a scaffold. -/
theorem run_print (index : Nat) : (tree : Tree) → (scaffold : Scaffold) →
    (scaffold.frames ≠ [] ∨ tree.isGroup) → tree.HasDefaults →
    scaffold.run index tree.print = .ok (scaffold.add tree)
  | .leaf criteria, ⟨roots, []⟩, hplace, _ => by simp [Tree.isGroup] at hplace
  | .leaf criteria, ⟨roots, frame :: outer⟩, _, _ => rfl
  | .group connective children, ⟨roots, frames⟩, _, hdefaults => by
    have hopen : Scaffold.step ⟨roots, frames⟩ index (.separator .opening) =
        .ok ⟨roots, ⟨none, []⟩ :: frames⟩ := rfl
    have hitems := run_printItems (index + 1) connective children roots ⟨none, []⟩ frames
      (by simp) hdefaults.2
    rw [Tree.print, run, hopen, Outcome.ok_bind, run_append, hitems, Outcome.ok_bind]
    simp only [run, step, filled_close hdefaults.1]
    rfl

/-- The rules that write items fill the group on top of a scaffold. -/
theorem run_printItems (index : Nat) (connective : Connective) : (trees : List Tree) →
    (roots : List Tree) → (frame : Frame) → (outer : List Frame) →
    (∀ found ∈ frame.connective, found = connective) → Tree.HaveDefaults trees →
    run ⟨roots, frame :: outer⟩ index (Tree.printItems connective trees) =
      .ok ⟨roots, filled connective frame trees :: outer⟩
  | [], roots, frame, outer, _, _ => by simp [Tree.printItems, run, filled]
  | [tree], roots, frame, outer, _, hdefaults => by
    rw [Tree.printItems, run_print index tree _ (Or.inl (by simp)) hdefaults.1]
    rfl
  | tree :: next :: rest, roots, frame, outer, hfound, hdefaults => by
    have hrules : Tree.printItems connective (tree :: next :: rest) =
        tree.print ++ ([.logical connective] ++ Tree.printItems connective (next :: rest)) := rfl
    have hmany : ¬ rest.length + 1 + 1 < 2 := by omega
    have hjoin : run ⟨roots, frame.add tree :: outer⟩ (index + tree.print.length)
        [.logical connective] =
          .ok ⟨roots, ⟨some connective, frame.children ++ [tree]⟩ :: outer⟩ :=
      run_logical hfound
    rw [hrules, run_append, run_print index tree _ (Or.inl (by simp)) hdefaults.1,
      Outcome.ok_bind, run_append, add, hjoin, Outcome.ok_bind,
      run_printItems _ connective (next :: rest) roots _ outer (by simp) hdefaults.2]
    simp [filled, hmany]

end

end Scaffold

/-- Building the tree of a group's notation gives the group back. -/
theorem Tree.ofRules_print {tree : Tree} (hgroup : tree.isGroup) (hdefaults : tree.HasDefaults) :
    Tree.ofRules tree.print = .ok tree := by
  rw [Tree.ofRules_eq_scaffold, Scaffold.run_print 0 tree _ (Or.inr hgroup) hdefaults]
  rfl

/-- Outside the place behind an opening mark nothing is left out. -/
theorem withoutLeads_closing (rest : List Rule) :
    withoutLeads (.separator .closing :: rest) = .separator .closing :: withoutLeads rest := by
  rw [withoutLeads]
  simp

/-- A connective behind an item stays. -/
theorem withoutLeads_logical (connective : Connective) (rest : List Rule) :
    withoutLeads (.logical connective :: rest) = .logical connective :: withoutLeads rest := by
  rw [withoutLeads]
  simp

/-- A comparison stays. -/
theorem withoutLeads_criteria (criteria : Criteria) (rest : List Rule) :
    withoutLeads (.criteria criteria :: rest) = .criteria criteria :: withoutLeads rest := by
  rw [withoutLeads]
  simp

/-- The first rule of an item is no connective, so that an opening mark in front of it is followed
by nothing to leave out. -/
theorem withoutLeads_opening_item (item : Item) (rest : List Rule) :
    withoutLeads (.separator .opening :: (item.rules ++ rest)) =
      .separator .opening :: withoutLeads (item.rules ++ rest) := by
  cases item <;> simp [Item.rules, withoutLeads]

/-- The connective in front of the items of a group is left out. -/
theorem withoutLeads_opening (lead : Option Connective) (items : Items) (rest : List Rule) :
    withoutLeads (.separator .opening :: (lead.toList.map .logical ++ (items.rules ++ rest))) =
      .separator .opening :: withoutLeads (items.rules ++ rest) := by
  cases lead with
  | some connective => rfl
  | none =>
    cases items with
    | single item => exact withoutLeads_opening_item item rest
    | joined item connective others =>
      simp only [Items.rules, List.append_assoc]
      exact withoutLeads_opening_item item _

/-- The notation of items with one more in front. -/
theorem Tree.printItems_cons {connective : Connective} {tree : Tree} {trees : List Tree}
    (htrees : trees ≠ []) : Tree.printItems connective (tree :: trees) =
      tree.print ++ .logical connective :: Tree.printItems connective trees := by
  cases trees with
  | nil => exact absurd rfl htrees
  | cons next rest => rfl

mutual

/-- The rules of an item write its tree, up to leading connectives. -/
theorem Item.withoutLeads_rules (rest : List Rule) : (item : Item) → {tree : Tree} →
    item.HasTree tree → withoutLeads (item.rules ++ rest) = tree.print ++ withoutLeads rest
  | .criteria criteria, _, .criteria _ => withoutLeads_criteria criteria rest
  | .empty, _, .empty => by
    simp [Item.rules, withoutLeads, Tree.print, Tree.printItems]
  | .group _ (.single item), _, .lone hitem => by
    have hinner := Item.withoutLeads_rules (.separator .closing :: rest) item hitem
    simp only [Item.rules, List.cons_append, List.append_assoc, withoutLeads_opening]
    simp [Items.rules, hinner, withoutLeads_closing, Tree.print, Tree.printItems]
  | .group lead (.joined item connective others), _, .joined _ hitem hothers => by
    have hinner := Items.withoutLeads_rules (.separator .closing :: rest)
      (.joined item connective others) (.joined hitem hothers)
    simp only [Item.rules, List.cons_append, List.append_assoc, withoutLeads_opening]
    simp [hinner, withoutLeads_closing, Tree.print]

/-- The rules of items write their trees, up to leading connectives. -/
theorem Items.withoutLeads_rules (rest : List Rule) {connective : Connective} : (items : Items) →
    {trees : List Tree} → items.HaveTrees connective trees →
    withoutLeads (items.rules ++ rest) = Tree.printItems connective trees ++ withoutLeads rest
  | .single item, _, .single hitem => Item.withoutLeads_rules rest item hitem
  | .joined item _ others, _, .joined hitem hothers => by
    have hfirst :=
      Item.withoutLeads_rules (.logical connective :: (others.rules ++ rest)) item hitem
    have hrest := Items.withoutLeads_rules rest others hothers
    rw [Tree.printItems_cons hothers.ne_nil]
    simp only [Items.rules, List.append_assoc, List.cons_append]
    rw [hfirst, withoutLeads_logical, hrest]

end

/-- The tree of a list in order is written as that list without leading connectives. -/
theorem Tree.print_of_ofRules {rules : List Rule} {tree : Tree} (horder : checkOrder rules = .ok ())
    (htree : Tree.ofRules rules = .ok tree) : tree.print = withoutLeads rules := by
  obtain ⟨item, _, rfl, hitem⟩ := exists_item_of_ofRules horder htree
  have hrules := Item.withoutLeads_rules [] item (Item.hasTree_of_tree item hitem)
  simpa [withoutLeads] using hrules.symm

/-- Building and writing trees undo each other: a group's notation builds the group, and the tree
of a list in order is written as the list, without the connectives that lead a group. -/
theorem print_ofRules_inverse :
    (∀ tree : Tree, tree.isGroup → tree.HasDefaults → Tree.ofRules tree.print = .ok tree) ∧
      ∀ (rules : List Rule) (tree : Tree), checkOrder rules = .ok () →
        Tree.ofRules rules = .ok tree → tree.print = withoutLeads rules := by
  constructor
  · intro tree hgroup hdefaults
    exact Tree.ofRules_print hgroup hdefaults
  · intro rules tree horder htree
    exact Tree.print_of_ofRules horder htree

/-- A group with a leading connective and an empty group inside, and its tree. -/
theorem print_ofRules_inverse_led :
    let book : Criteria := ⟨"type", .equal, .value (.text "book"), false⟩
    let tree : Tree := .group .or [.leaf book, .group .and []]
    let rules : List Rule := [.separator .opening, .logical .or, .criteria book, .logical .or,
      .separator .opening, .separator .closing, .separator .closing]
    tree.HasDefaults ∧ Tree.ofRules tree.print = .ok tree ∧ checkOrder rules = .ok () ∧
      Tree.ofRules rules = .ok tree ∧ tree.print = withoutLeads rules := by
  intro book tree rules
  have hdefaults : tree.HasDefaults := by simp [tree, Tree.HasDefaults, Tree.HaveDefaults]
  have horder : checkOrder rules = .ok () := rfl
  have htree : Tree.ofRules rules = .ok tree := rfl
  exact ⟨hdefaults, print_ofRules_inverse.1 tree rfl hdefaults, horder, htree,
    print_ofRules_inverse.2 rules tree horder htree⟩

end FilterRules
