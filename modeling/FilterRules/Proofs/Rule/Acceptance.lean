import FilterRules.Proofs.Rule.Building
import FilterRules.Proofs.Rule.Groups

/-!
# Which rule lists have a tree

Building the tree of a list in order fails for three reasons only: both connectives stand in one
group, a connective joins fewer than two items, or there is more than one group on top. Each fault is
traced to a group that accounts for it, and a group of a list that has a tree accounts for none. An
empty group counts as an item like any other.
-/

namespace FilterRules

open GroupContents (Fault)

/-- The only fault of closing a group is a connective without two items to join. -/
theorem Frame.close_eq_error {frame : Frame} {error : CompileError}
    (h : frame.close = .error error) :
    error = .emission .minimumCriteria ∧ frame.connective ≠ none ∧ frame.children.length < 2 := by
  rw [Frame.close] at h
  split at h
  case isTrue hfew =>
    simp only [Bool.and_eq_true, decide_eq_true_eq] at hfew
    exact ⟨(Except.error.inj h).symm, Option.isSome_iff_ne_none.mp hfew.1, hfew.2⟩
  case isFalse => simp at h

/-- The only fault of joining a group is a connective beside the other one. -/
theorem Frame.join_eq_error {frame : Frame} {connective : Connective} {index : Nat}
    {error : CompileError} (h : frame.join connective index = .error error) :
    error = .structural .mixedConnectives index ∧
      ∃ other ∈ frame.connective, other ≠ connective := by
  obtain ⟨found, children⟩ := frame
  cases found with
  | none => simp [Frame.join] at h
  | some other =>
    simp only [Frame.join] at h
    split at h
    case isTrue => simp at h
    case isFalse hne => exact ⟨(Except.error.inj h).symm, other, rfl, hne⟩

/-- Filling a group adds one tree for each item, and a connective if one is read. -/
theorem Items.fill_eq_ok {index : Nat} : (items : Items) → {frame full : Frame} →
    items.fill index frame = .ok full →
    full.children.length = frame.children.length + items.toList.length ∧
      (full.connective ≠ none → frame.connective.toList ++ items.connectives ≠ [])
  | .single item, frame, full, h => by
    obtain ⟨tree, _, hadd⟩ := Outcome.bind_eq_ok_iff.mp h
    obtain rfl : _ = full := Except.ok.inj hadd
    simp [Frame.add, Items.toList, Items.connectives]
  | .joined item connective others, frame, full, h => by
    obtain ⟨tree, _, hrest⟩ := Outcome.bind_eq_ok_iff.mp h
    obtain ⟨joined, hjoin, hothers⟩ := Outcome.bind_eq_ok_iff.mp hrest
    obtain ⟨_, rfl⟩ := Frame.join_eq_ok_iff.mp hjoin
    have hlength := (Items.fill_eq_ok others hothers).1
    simp only [Frame.add, List.length_append, List.length_singleton] at hlength
    refine ⟨?_, by simp [Items.connectives]⟩
    simp only [hlength, Items.toList, List.length_cons]
    omega

mutual

/-- A fault in building the tree of an item has a group of the item that accounts for it. -/
theorem Item.fault_of_tree {index : Nat} {error : CompileError} : (item : Item) →
    item.tree index = .error error → Fault (fun _ => true) item.groups error
  | .criteria criteria, h => by simp [Item.tree] at h
  | .empty, h => by simp [Item.tree] at h
  | .group lead items, h => by
    rw [Item.tree] at h
    rcases Outcome.bind_eq_error_iff.mp h with hfill | ⟨full, hfill, hclose⟩
    · exact Items.fault_of_fill items hfill (List.subset_append_left _ _)
        (List.subset_append_right _ _)
    · obtain ⟨hlength, hconnective⟩ := Items.fill_eq_ok items hfill
      obtain ⟨rfl, hne, hfew⟩ := Frame.close_eq_error hclose
      exact .few List.mem_cons_self (hconnective hne) (by simpa [hlength] using hfew)

/-- A fault in filling a group is accounted for by one of the groups inside, or by the group. -/
theorem Items.fault_of_fill {index : Nat} {error : CompileError} {frame : Frame}
    {group : GroupContents} : (items : Items) → items.fill index frame = .error error →
    frame.connective.toList ⊆ group.connectives → items.connectives ⊆ group.connectives →
    Fault (fun _ => true) (group :: items.groups) error
  | .single item, h, _, _ => by
    rw [Items.fill] at h
    rcases Outcome.bind_eq_error_iff.mp h with htree | ⟨tree, _, hadd⟩
    · exact (Item.fault_of_tree item htree).mono (List.subset_cons_self _ _)
    · simp at hadd
  | .joined item connective others, h, hframe, hitems => by
    obtain ⟨hfirst, hrest⟩ := List.cons_subset.mp hitems
    rw [Items.fill] at h
    rcases Outcome.bind_eq_error_iff.mp h with htree | ⟨tree, _, h⟩
    · refine (Item.fault_of_tree item htree).mono ?_
      exact List.Subset.trans (List.subset_append_left _ _) (List.subset_cons_self _ _)
    rcases Outcome.bind_eq_error_iff.mp h with hjoin | ⟨joined, hjoin, hothers⟩
    · obtain ⟨rfl, found, hfound, hne⟩ := Frame.join_eq_error hjoin
      have hmem : found ∈ group.connectives := hframe (Option.mem_toList.mpr hfound)
      exact .mixed _ List.mem_cons_self (GroupContents.isMixed_of_ne hmem hfirst hne)
    · obtain ⟨_, rfl⟩ := Frame.join_eq_ok_iff.mp hjoin
      have hjoined : (some connective).toList ⊆ group.connectives := by simpa using hfirst
      refine (Items.fault_of_fill others hothers hjoined hrest).mono ?_
      exact List.cons_subset_cons _ (List.subset_append_right _ _)

end

mutual

/-- The groups of an item with a tree are sound. -/
theorem Item.HasTree.isSound : {item : Item} → {tree : Tree} → item.HasTree tree →
    ∀ group ∈ item.groups, group.IsSound fun _ => true
  | .criteria criteria, _, .criteria _ => by simp [Item.groups]
  | .empty, _, .empty => by simp [Item.groups, GroupContents.IsSound, GroupContents.IsMixed]
  | .group _ (.single item), _, .lone hitem => by
    refine List.forall_mem_cons.mpr ⟨?_, hitem.isSound⟩
    simp [GroupContents.IsSound, GroupContents.IsMixed, Items.connectives]
  | .group lead (.joined item connective others), _, .joined hlead hitem hothers => by
    have hitems := Items.HaveTrees.joined hitem hothers
    have hsame : ∀ found ∈ lead.toList ++ (Items.joined item connective others).connectives,
        found = connective := by
      intro found hfound
      rcases List.mem_append.mp hfound with hmem | hmem
      · exact hlead found (Option.mem_toList.mp hmem)
      · exact hitems.connectives found hmem
    refine List.forall_mem_cons.mpr ⟨⟨GroupContents.not_isMixed_of_forall hsame, fun _ => ?_⟩,
      hitems.isSound⟩
    have hone : 0 < others.toList.length := by cases others <;> simp [Items.toList]
    simp only [List.countP_true, Items.toList, List.length_cons]
    omega

/-- The groups of items with trees are sound. -/
theorem Items.HaveTrees.isSound : {items : Items} → {connective : Connective} →
    {trees : List Tree} → items.HaveTrees connective trees →
    ∀ group ∈ items.groups, group.IsSound fun _ => true
  | .single _, _, _, .single hitem => hitem.isSound
  | .joined _ _ _, _, _, .joined hitem hothers =>
    List.forall_mem_append.mpr ⟨hitem.isSound, hothers.isSound⟩

end

/-- A fault in going through groups has one of their groups that accounts for it. -/
theorem Scaffold.fault_of_run_groups {index : Nat} {groups : List Item} {roots : List Tree}
    {error : CompileError} (hgroups : ∀ group ∈ groups, group.isGroup)
    (h : run ⟨roots, []⟩ index (Item.rulesOf groups) = .error error) :
    Fault (fun _ => true) (Item.groupsOf groups) error := by
  induction groups generalizing index roots with
  | nil => simp [Item.rulesOf, run] at h
  | cons group groups ih =>
    obtain ⟨hgroup, hothers⟩ := List.forall_mem_cons.mp hgroups
    have hrules : Item.rulesOf (group :: groups) = group.rules ++ Item.rulesOf groups := rfl
    rw [hrules, run_append, run_item index group _ (Or.inr hgroup)] at h
    rcases Outcome.bind_eq_error_iff.mp h with hfirst | ⟨scaffold, hfirst, hrest⟩
    · have htree := Outcome.map_eq_error_iff.mp hfirst
      exact (Item.fault_of_tree group htree).mono (List.subset_append_left _ _)
    · obtain ⟨tree, _, rfl⟩ := Outcome.map_eq_ok_iff.mp hfirst
      exact (ih hothers hrest).mono (List.subset_append_right _ _)

namespace Item.Read

variable {groups : List Item} {rules : List Rule} {tree : Tree} {error : CompileError}

/-- A list with a tree is a single group, and all of its groups are sound. -/
theorem of_ofRules_eq_ok (hread : Item.Read groups rules) (h : Tree.ofRules rules = .ok tree) :
    groups.length = 1 ∧ ∀ group ∈ Item.groupsOf groups, group.IsSound fun _ => true := by
  obtain ⟨hgroups, rfl⟩ := hread
  obtain ⟨item, rfl, _, htree⟩ := exists_item_of_groups hgroups h
  refine ⟨rfl, ?_⟩
  simpa [Item.groupsOf] using (Item.hasTree_of_tree item htree).isSound

/-- A list without a tree has a group that accounts for it, or several groups on top. -/
theorem of_ofRules_eq_error (hread : Item.Read groups rules) (hne : rules ≠ [])
    (h : Tree.ofRules rules = .error error) :
    Fault (fun _ => true) (Item.groupsOf groups) error ∨
      (error = .structural .multipleRoots none ∧ groups.length ≠ 1) := by
  have hnone := hread.ne_nil hne
  obtain ⟨hgroups, rfl⟩ := hread
  rw [Tree.ofRules_eq_scaffold] at h
  rcases Outcome.bind_eq_error_iff.mp h with hrun | ⟨⟨roots, frames⟩, hrun, hroot⟩
  · exact Or.inl (Scaffold.fault_of_run_groups hgroups hrun)
  · obtain ⟨hframes, hroots⟩ := Scaffold.run_groups hgroups hrun
    obtain rfl : frames = [] := hframes
    match groups, roots, hroots with
    | [], [], _ => exact absurd rfl hnone
    | [item], [root], _ => simp [Scaffold.root] at hroot
    | _ :: _ :: _, _ :: _ :: _, _ =>
      exact Or.inr ⟨(Except.error.inj hroot).symm, by simp⟩

/-- A list that is not empty has a tree when it is a single group and all of its groups are
sound. -/
theorem exists_tree_iff (hread : Item.Read groups rules) (hne : rules ≠ []) :
    (∃ tree, Tree.ofRules rules = .ok tree) ↔
      groups.length = 1 ∧ ∀ group ∈ Item.groupsOf groups, group.IsSound fun _ => true := by
  constructor
  · rintro ⟨tree, htree⟩
    exact hread.of_ofRules_eq_ok htree
  · rintro ⟨hone, hsound⟩
    cases hresult : Tree.ofRules rules with
    | ok tree => exact ⟨tree, rfl⟩
    | error error =>
      rcases hread.of_ofRules_eq_error hne hresult with hfault | ⟨_, hmany⟩
      · obtain ⟨group, hgroup, hnot⟩ := hfault.exists_not_sound
        exact absurd (hsound group hgroup) hnot
      · exact absurd hone hmany

end Item.Read

end FilterRules
