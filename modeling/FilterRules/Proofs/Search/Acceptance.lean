import FilterRules.Compilation
import FilterRules.Proofs.Rule.Acceptance
import FilterRules.Proofs.Rule.Mapping
import FilterRules.Proofs.Validity

/-!
# Which rule lists have a search query

The criteria of a valid list stand in the way of no query: every tree of such criteria has one,
whichever of its groups become one query as a whole. A valid list has a search query exactly when it
has a tree.
-/

namespace FilterRules

mutual

/-- The comparisons of a tree. -/
def Tree.leaves : Tree → List Criteria
  | .leaf criteria => [criteria]
  | .group _ children => Tree.leavesOf children

/-- The comparisons of some trees. -/
def Tree.leavesOf : List Tree → List Criteria
  | [] => []
  | tree :: trees => tree.leaves ++ Tree.leavesOf trees

end

/-- Trees that are criteria are their own comparisons. -/
theorem Tree.leavesOf_eq_of_criteria? {trees : List Tree} {leaves : List Criteria}
    (h : Tree.criteria? trees = some leaves) : Tree.leavesOf trees = leaves := by
  induction trees generalizing leaves with
  | nil => exact Option.some.inj h
  | cons tree trees ih =>
    cases tree with
    | leaf criteria =>
      obtain ⟨others, hothers, rfl⟩ := Option.map_eq_some_iff.mp h
      simp [Tree.leavesOf, Tree.leaves, ih hothers]
    | group connective children => simp [Tree.criteria?] at h

mutual

/-- The comparisons of the tree of an item are those of its rules, in order. -/
theorem Item.HasTree.leaves_eq : {item : Item} → {tree : Tree} → item.HasTree tree →
    tree.leaves = Rule.criteriaOf item.rules
  | .criteria _, _, .criteria _ => rfl
  | .empty, _, .empty => rfl
  | .group _ (.single _), _, .lone hitem => by
    rw [Tree.leaves, Tree.leavesOf, Tree.leavesOf, List.append_nil, hitem.leaves_eq, Item.rules,
      Rule.criteriaOf_group, Items.rules]
  | .group lead (.joined item connective others), _, .joined _ hitem hothers => by
    have hleaves := (Items.HaveTrees.joined hitem hothers).leavesOf_eq
    rw [Tree.leaves, hleaves, Item.rules, Rule.criteriaOf_group]

/-- The comparisons of the trees of items are those of their rules, in order. -/
theorem Items.HaveTrees.leavesOf_eq : {items : Items} → {connective : Connective} →
    {trees : List Tree} → items.HaveTrees connective trees →
    Tree.leavesOf trees = Rule.criteriaOf items.rules
  | .single _, _, _, .single hitem => by simp [Tree.leavesOf, Items.rules, hitem.leaves_eq]
  | .joined _ _ _, _, _, .joined hitem hothers => by
    rw [Tree.leavesOf, hitem.leaves_eq, hothers.leavesOf_eq, Items.rules, Rule.criteriaOf_join]

end

/-- The comparisons of the tree of an ordered list are those of the list, in order. -/
theorem Tree.leaves_of_ofRules {rules : List Rule} {tree : Tree}
    (horder : checkOrder rules = .ok ()) (htree : Tree.ofRules rules = .ok tree) :
    tree.leaves = Rule.criteriaOf rules := by
  obtain ⟨item, _, rfl, hbuilt⟩ := exists_item_of_ofRules horder htree
  exact (Item.hasTree_of_tree item hbuilt).leaves_eq

/-- A comparison stands in the tree of an ordered list exactly when it stands in the list. -/
theorem Tree.mem_leaves_of_ofRules {rules : List Rule} {tree : Tree} {criteria : Criteria}
    (horder : checkOrder rules = .ok ()) (htree : Tree.ofRules rules = .ok tree) :
    criteria ∈ tree.leaves ↔ Rule.criteria criteria ∈ rules := by
  rw [Tree.leaves_of_ofRules horder htree, Rule.mem_criteriaOf]

mutual

/-- The comparisons of a tree with other comparisons. -/
theorem Tree.leaves_map (change : Criteria → Criteria) : (tree : Tree) →
    (tree.map change).leaves = tree.leaves.map change
  | .leaf _ => rfl
  | .group _ children => Tree.leavesOf_mapAll change children

/-- The comparisons of some trees with other comparisons. -/
theorem Tree.leavesOf_mapAll (change : Criteria → Criteria) : (trees : List Tree) →
    Tree.leavesOf (Tree.mapAll change trees) = (Tree.leavesOf trees).map change
  | [] => rfl
  | tree :: trees => by
    rw [Tree.mapAll, Tree.leavesOf, Tree.leavesOf, List.map_append, Tree.leaves_map change tree,
      Tree.leavesOf_mapAll change trees]

end

/-- The tree of the converted rules of a list is that of the list with converted comparisons. -/
theorem Tree.ofRules_convertedRules (rules : List Rule) (schema : Schema) (settings : Settings)
    (forSearch : Bool) :
    Tree.ofRules (convertedRules rules schema settings forSearch) =
      (Tree.ofRules rules).map
        (Tree.map fun criteria => criteria.converted schema settings forSearch) :=
  Tree.ofRules_map rules

/-- What holds of the changed comparisons of an ordered list holds in its changed tree. -/
theorem Tree.forall_mem_leaves_map {rules : List Rule} {tree : Tree} {change : Criteria → Criteria}
    {P : Criteria → Prop} (horder : checkOrder rules = .ok ()) (htree : Tree.ofRules rules = .ok tree)
    (h : ∀ criteria, Rule.criteria criteria ∈ rules → P (change criteria)) :
    ∀ criteria ∈ (tree.map change).leaves, P criteria := by
  rw [Tree.leaves_map]
  exact List.forall_mem_map.mpr fun criteria hcriteria =>
    h criteria ((Tree.mem_leaves_of_ofRules horder htree).mp hcriteria)

namespace SearchContext

variable {context : SearchContext}

/-- A criteria whose operand has the right shape has a leaf on every field. -/
theorem exists_leaf (context : SearchContext) {criteria : Criteria} (hshape : criteria.hasShape)
    (path : String) : ∃ leaf, context.leaf criteria path = .ok leaf := by
  obtain ⟨field, relationship, operand, exactMatch⟩ := criteria
  cases operand <;> cases relationship <;>
    simp_all [Criteria.hasShape, Relationship.isSet, leaf, Relationship.positive, Relationship.test,
      Test.relationship, Criteria.scalar, Criteria.several, Except.map]

/-- A ready criteria has a query. -/
theorem exists_criteria {criteria : Criteria} (h : criteria.IsReady context.schema) :
    ∃ query, context.criteria criteria = .ok query := by
  obtain ⟨path, literal, hpath, hliteral⟩ := h.exists_emittedFilter
  obtain ⟨leaf, hleaf⟩ := exists_leaf context h.shape path.schemaPath
  obtain ⟨selection, hselection⟩ : ∃ selection, context.elementFilter path = .ok selection := by
    rw [elementFilter, hliteral, Outcome.ok_bind]
    split <;> exact ⟨_, rfl⟩
  rw [SearchContext.criteria, AttributePath.parseAt_eq_ok_iff.mpr hpath, Outcome.ok_bind, hleaf,
    Outcome.ok_bind, hselection, Outcome.ok_bind]
  cases selection <;> exact ⟨_, rfl⟩

/-- Criteria whose operands have the right shape have leaves inside a nested field. -/
theorem exists_innerLeaves (context : SearchContext) (root : String) {leaves : List Criteria}
    (h : ∀ criteria ∈ leaves, criteria.hasShape) :
    ∃ queries, context.innerLeaves root leaves = .ok queries := by
  induction leaves with
  | nil => exact ⟨[], rfl⟩
  | cons criteria rest ih =>
    obtain ⟨hshape, hrest⟩ := List.forall_mem_cons.mp h
    obtain ⟨leaf, hleaf⟩ := exists_leaf context hshape criteria.path
    obtain ⟨queries, hqueries⟩ := ih hrest
    rw [innerLeaves, innerLeaf, hleaf, hqueries]
    exact ⟨_, rfl⟩

/-- Criteria whose operands have the right shape have one query below a nested field. -/
theorem exists_combine (context : SearchContext) (root : String) (connective : Connective)
    {leaves : List Criteria} (h : ∀ criteria ∈ leaves, criteria.hasShape) :
    ∃ query, context.combine root connective leaves = .ok query := by
  have hshapes : ∀ (select : Criteria → Bool), ∀ criteria ∈ leaves.filter select,
      criteria.hasShape :=
    fun _ criteria hcriteria => h criteria (List.mem_filter.mp hcriteria).1
  obtain ⟨positive, hpositive⟩ := exists_innerLeaves context root
    (hshapes fun criteria => !criteria.relationship.isNegated)
  obtain ⟨excluded, hexcluded⟩ := exists_innerLeaves context root
    (hshapes fun criteria => criteria.relationship.isNegated)
  simp only [combine, hpositive, hexcluded, Outcome.ok_bind]
  exact ⟨_, rfl⟩

/-- Ready criteria have paths. -/
theorem exists_paths {leaves : List Criteria}
    (h : ∀ criteria ∈ leaves, criteria.IsReady context.schema) :
    ∃ found, paths leaves = .ok found := by
  induction leaves with
  | nil => exact ⟨[], rfl⟩
  | cons criteria rest ih =>
    obtain ⟨hready, hrest⟩ := List.forall_mem_cons.mp h
    obtain ⟨path, _, hpath, _⟩ := hready.path
    obtain ⟨found, hfound⟩ := ih hrest
    rw [paths, AttributePath.parseAt_eq_ok_iff.mpr hpath, hfound]
    exact ⟨_, rfl⟩

/-- Nothing stands in the way of looking for one query for several ready criteria. -/
theorem exists_combinedNested (connective : Connective) {leaves : List Criteria}
    (h : ∀ criteria ∈ leaves, criteria.IsReady context.schema) :
    ∃ whole, context.combinedNested connective leaves = .ok whole := by
  obtain ⟨found, hfound⟩ := exists_paths h
  rw [combinedNested, hfound, Outcome.ok_bind]
  split
  · exact ⟨none, rfl⟩
  · cases context.schema.groupingRoot? .nested (leaves.map Criteria.path) with
    | none => exact ⟨none, rfl⟩
    | some root =>
      obtain ⟨query, hquery⟩ :=
        exists_combine context root connective fun criteria hcriteria => (h criteria hcriteria).shape
      simp only [hquery, Outcome.ok_bind]
      exact ⟨_, rfl⟩

/-- Nothing stands in the way of looking for the query of a group as a whole. -/
theorem exists_wholeGroup (connective : Connective) {children : List Tree}
    (h : ∀ criteria ∈ Tree.leavesOf children, criteria.IsReady context.schema) :
    ∃ whole, context.wholeGroup connective children = .ok whole := by
  unfold wholeGroup
  split
  · exact ⟨_, rfl⟩
  · rename_i leaves hleaves
    rw [Tree.leavesOf_eq_of_criteria? hleaves] at h
    exact exists_combinedNested connective h
  · exact ⟨none, rfl⟩

mutual

/-- A tree of ready criteria has a query. -/
theorem exists_query : (tree : Tree) →
    (∀ criteria ∈ tree.leaves, criteria.IsReady context.schema) →
    ∃ query, context.query tree = .ok query
  | .leaf criteria, h => by
    rw [SearchContext.query]
    exact exists_criteria (h criteria (by simp [Tree.leaves]))
  | .group connective children, h => by
    obtain ⟨whole, hwhole⟩ := exists_wholeGroup connective h
    rw [SearchContext.query, hwhole, Outcome.ok_bind]
    cases whole with
    | some query => exact ⟨query, rfl⟩
    | none =>
      obtain ⟨queries, hqueries⟩ := exists_queries children h
      simp only [hqueries, Outcome.ok_bind]
      exact ⟨_, rfl⟩

/-- Trees of ready criteria have queries. -/
theorem exists_queries : (trees : List Tree) →
    (∀ criteria ∈ Tree.leavesOf trees, criteria.IsReady context.schema) →
    ∃ queries, context.queries trees = .ok queries
  | [], _ => ⟨[], rfl⟩
  | tree :: trees, h => by
    obtain ⟨hfirst, hrest⟩ := List.forall_mem_append.mp h
    obtain ⟨query, hquery⟩ := exists_query tree hfirst
    obtain ⟨queries, hqueries⟩ := exists_queries trees hrest
    rw [SearchContext.queries, hquery, Outcome.ok_bind, hqueries]
    exact ⟨_, rfl⟩

end

end SearchContext

open GroupContents (Fault)

namespace Compiler

variable {compiler : Compiler} {rules : List Rule} {groups : List Item}

/-- The search query of a valid list is the one of the tree of its converted rules. -/
theorem searchQuery_of_validate (hvalid : validate rules compiler.schema = .ok ()) :
    let converted := convertedRules rules compiler.schema compiler.settings true
    compiler.searchQuery rules = (do
      let tree ← Tree.ofRules converted
      SearchContext.query ⟨compiler.schema, compiler.settings, requiresScoring converted⟩ tree) := by
  rw [searchQuery, hvalid, Outcome.ok_bind, emitSearch, convertRules_of_validate _ _ hvalid]
  rfl

/-- A valid list has a search query when its converted rules have a tree. -/
theorem exists_searchQuery_of_tree (hvalid : validate rules compiler.schema = .ok ())
    (hread : Item.Read groups rules) {tree : Tree}
    (htree : Tree.ofRules (convertedRules rules compiler.schema compiler.settings true) = .ok tree) :
    ∃ query, compiler.searchQuery rules = .ok query := by
  have hready := isReady_of_validate compiler.settings true hvalid
  have hconverted := hread.converted compiler.schema compiler.settings true
  rw [searchQuery_of_validate hvalid, htree, Outcome.ok_bind]
  rw [← hconverted.2] at htree hready
  obtain ⟨item, hitem, _, hbuilt⟩ := exists_item_of_groups hconverted.1 htree
  rw [hitem, Item.rulesOf_single] at hready
  have hleaves := (Item.hasTree_of_tree item hbuilt).leaves_eq
  exact SearchContext.exists_query tree fun criteria hcriteria =>
    hready criteria (Rule.mem_criteriaOf.mp (hleaves ▸ hcriteria))

/-- A valid list without a search query has a group that accounts for it, or several groups on
top. -/
theorem fault_of_searchQuery (hvalid : validate rules compiler.schema = .ok ())
    (hread : Item.Read groups rules) {error : CompileError}
    (h : compiler.searchQuery rules = .error error) :
    Fault (fun _ => true) (Item.groupsOf groups) error ∨
      (error = .structural .multipleRoots none ∧ groups.length ≠ 1) := by
  have hconverted := hread.converted compiler.schema compiler.settings true
  cases htree : Tree.ofRules (convertedRules rules compiler.schema compiler.settings true) with
  | ok tree =>
    obtain ⟨query, hquery⟩ := exists_searchQuery_of_tree hvalid hread htree
    simp [hquery] at h
  | error other =>
    rw [searchQuery_of_validate hvalid, htree, Outcome.error_bind] at h
    obtain rfl : other = error := Except.error.inj h
    have hfault := hconverted.of_ofRules_eq_error (convertedRules_ne_nil hvalid) htree
    rw [Item.length_convertedGroups] at hfault
    exact hfault.imp_left (Item.fault_of_convertedGroups fun _ _ => rfl)

/-- A valid list has a search query when it is a single group and all of its groups are sound. -/
theorem exists_searchQuery_iff (hvalid : validate rules compiler.schema = .ok ())
    (hread : Item.Read groups rules) :
    (∃ query, compiler.searchQuery rules = .ok query) ↔
      groups.length = 1 ∧ ∀ group ∈ Item.groupsOf groups, group.IsSound fun _ => true := by
  have hconverted := hread.converted compiler.schema compiler.settings true
  have htrees := hconverted.exists_tree_iff (convertedRules_ne_nil hvalid)
  rw [Item.length_convertedGroups, Item.isSound_convertedGroups fun _ _ => rfl] at htrees
  rw [← htrees]
  constructor
  · rintro ⟨query, hquery⟩
    rw [searchQuery_of_validate hvalid] at hquery
    obtain ⟨tree, htree, _⟩ := Outcome.bind_eq_ok_iff.mp hquery
    exact ⟨tree, htree⟩
  · rintro ⟨tree, htree⟩
    exact exists_searchQuery_of_tree hvalid hread htree

/-- A valid list can be read as groups, and however it is read: it has a search query when it is a
single group, no group in it holds both connectives, and every group with a connective holds at least
two items, empty groups among them. It has no other faults than those three. -/
theorem searchQuery_acceptance (hvalid : validate rules compiler.schema = .ok ()) :
    (∃ groups, Item.Read groups rules) ∧ ∀ groups, Item.Read groups rules →
      ((∃ query, compiler.searchQuery rules = .ok query) ↔
        groups.length = 1 ∧ ∀ group ∈ Item.groupsOf groups,
          ¬ (.and ∈ group.connectives ∧ .or ∈ group.connectives) ∧
            (group.connectives ≠ [] → 2 ≤ group.items.length)) ∧
      ∀ error, compiler.searchQuery rules = .error error →
        (∃ place, error = .structural .mixedConnectives place ∧
          ∃ group ∈ Item.groupsOf groups, .and ∈ group.connectives ∧ .or ∈ group.connectives) ∨
        (error = .emission .minimumCriteria ∧
          ∃ group ∈ Item.groupsOf groups, group.connectives ≠ [] ∧ group.items.length < 2) ∨
        (error = .structural .multipleRoots none ∧ groups.length ≠ 1) := by
  refine ⟨Item.exists_read (checkOrder_of_validate hvalid), fun groups hread => ⟨?_, ?_⟩⟩
  · rw [exists_searchQuery_iff hvalid hread]
    simp only [GroupContents.IsSound, GroupContents.IsMixed, List.countP_true]
  · intro error herror
    rcases fault_of_searchQuery hvalid hread herror with hfault | hmany
    · cases hfault with
      | mixed place hgroup hmixed => exact Or.inl ⟨place, rfl, _, hgroup, hmixed⟩
      | few hgroup hne hfew =>
        exact Or.inr (Or.inl ⟨rfl, _, hgroup, hne, by simpa using hfew⟩)
    · exact Or.inr (Or.inr hmany)

/-- A group with an empty group beside its only comparison. -/
theorem searchQuery_acceptance_empty :
    let compiler : Compiler := ⟨⟨[("type", .ofStrings)]⟩, {}⟩
    let book : Criteria := ⟨"type", .equal, .value (.text "book"), false⟩
    let item : Item := .group none (.joined (.criteria book) .or (.single .empty))
    validate item.rules compiler.schema = .ok () ∧
      ∃ query, compiler.searchQuery item.rules = .ok query := by
  intro compiler book item
  have hvalid : validate item.rules compiler.schema = .ok () := by cbv
  have hread : Item.Read [item] item.rules := ⟨by simp [item, Item.isGroup], Item.rulesOf_single⟩
  refine ⟨hvalid, ((searchQuery_acceptance hvalid).2 [item] hread).1.mpr ⟨rfl, ?_⟩⟩
  simp [item, Item.groupsOf, Item.groups, Items.groups, Items.connectives, Items.toList]

end Compiler

end FilterRules
