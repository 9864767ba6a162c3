import FilterRules.Proofs.Projection
import FilterRules.Proofs.Rule.Mapping
import FilterRules.Proofs.Search.Acceptance
import FilterRules.Proofs.Search.Combination

/-!
# Search queries under the canonical spelling

The query of a comparison on its own is made from its path, so that the spelling of the attribute does
not show. A group of comparisons that share a nested field is made from the attributes as they stand:
its query is the same under the canonical spelling when the comparisons have that spelling already, and
when they share a nested field under neither spelling.
-/

namespace FilterRules

variable {criteria : Criteria} {leaves : List Criteria}

mutual

/-- The groups of a tree that consist of comparisons, each with its comparisons. -/
def Tree.criteriaGroups : Tree → List (List Criteria)
  | .leaf _ => []
  | .group _ children => (Tree.criteria? children).toList ++ Tree.criteriaGroupsOf children

/-- The groups of some trees that consist of comparisons. -/
def Tree.criteriaGroupsOf : List Tree → List (List Criteria)
  | [] => []
  | tree :: trees => tree.criteriaGroups ++ Tree.criteriaGroupsOf trees

end

/-- Whether comparisons that stand in one group are grouped alike under the canonical spelling: one of
them selects an element, or all have that spelling already, or they share no nested field under either
spelling. -/
def Schema.GroupsAlike (schema : Schema) (leaves : List Criteria) : Prop :=
  (∃ criteria ∈ leaves, criteria.selects = true) ∨
    (∀ criteria ∈ leaves, criteria.canonicalPath = criteria.path) ∨
    (schema.groupingRoot? .nested (leaves.map Criteria.path) = none ∧
      schema.groupingRoot? .nested (leaves.map Criteria.canonicalPath) = none)

namespace SearchContext

variable {context : SearchContext}

/-- A comparison on its own has the same query under its canonical spelling. -/
theorem criteria_respelled (hnamed : criteria.isNamed = true)
    (hready : criteria.IsReady context.schema) :
    context.criteria criteria.respelled = context.criteria criteria := by
  obtain ⟨path, _, hpath, _⟩ := hready.path
  have hrespelled := (Criteria.parse?_respelled hnamed).trans hpath
  rw [SearchContext.criteria, SearchContext.criteria, AttributePath.parseAt_eq_ok_iff.mpr hpath,
    AttributePath.parseAt_eq_ok_iff.mpr hrespelled]
  rfl

/-- Comparisons keep their paths under their canonical spelling. -/
theorem paths_respelled (hnamed : ∀ criteria ∈ leaves, criteria.isNamed = true)
    (hready : ∀ criteria ∈ leaves, criteria.IsReady context.schema) :
    paths (leaves.map Criteria.respelled) = paths leaves := by
  induction leaves with
  | nil => rfl
  | cons criteria rest ih =>
    obtain ⟨hfirst, hothers⟩ := List.forall_mem_cons.mp hnamed
    obtain ⟨hpath, hrest⟩ := List.forall_mem_cons.mp hready
    obtain ⟨path, _, hpath, _⟩ := hpath.path
    have hrespelled := (Criteria.parse?_respelled hfirst).trans hpath
    rw [List.map_cons, paths, paths, AttributePath.parseAt_eq_ok_iff.mpr hpath,
      AttributePath.parseAt_eq_ok_iff.mpr hrespelled, ih hothers hrest]

/-- Comparisons that are grouped alike have the same query as a whole, or none. -/
theorem combinedNested_respelled (connective : Connective)
    (hnamed : ∀ criteria ∈ leaves, criteria.isNamed = true)
    (hready : ∀ criteria ∈ leaves, criteria.IsReady context.schema)
    (h : context.schema.GroupsAlike leaves) :
    context.combinedNested connective (leaves.map Criteria.respelled) =
      context.combinedNested connective leaves := by
  obtain ⟨found, hfound⟩ := exists_paths hready
  rw [combinedNested, combinedNested, paths_respelled hnamed hready, hfound, Outcome.ok_bind,
    Outcome.ok_bind]
  cases hselects : leaves.any Criteria.selects with
  | true => simp [paths_eq_ok hfound, hselects]
  | false =>
    rcases h with ⟨criteria, hcriteria, hselect⟩ | hcanonical | ⟨hroot, hother⟩
    · exact absurd hselect (List.any_eq_false.mp hselects criteria hcriteria)
    · have hsame : leaves.map Criteria.respelled = leaves := by
        refine (List.map_congr_left fun criteria hcriteria => ?_).trans (List.map_id leaves)
        rw [Criteria.respelled, hcanonical criteria hcriteria]
        rfl
      rw [hsame]
    · have hpaths : (leaves.map Criteria.respelled).map Criteria.path =
          leaves.map Criteria.canonicalPath := by
        rw [List.map_map]
        rfl
      rw [hpaths, hroot, hother]

/-- A group whose comparisons are grouped alike has the same query as a whole, or none. -/
theorem wholeGroup_respelled (connective : Connective) {children : List Tree}
    (hnamed : ∀ criteria ∈ Tree.leavesOf children, criteria.isNamed = true)
    (hready : ∀ criteria ∈ Tree.leavesOf children, criteria.IsReady context.schema)
    (h : ∀ leaves ∈ Tree.criteria? children, context.schema.GroupsAlike leaves) :
    context.wholeGroup connective (Tree.mapAll Criteria.respelled children) =
      context.wholeGroup connective children := by
  match children with
  | [] => rfl
  | [only] => rfl
  | first :: second :: rest =>
    cases hleaves : Tree.criteria? (first :: second :: rest) with
    | none =>
      have hmapped := Tree.criteria?_mapAll Criteria.respelled (first :: second :: rest)
      rw [hleaves] at hmapped
      simp only [Tree.mapAll, Option.map_none] at hmapped
      simp only [wholeGroup, Tree.mapAll, hmapped, hleaves]
    | some leaves =>
      have hmapped := Tree.criteria?_mapAll Criteria.respelled (first :: second :: rest)
      rw [hleaves] at hmapped
      simp only [Tree.mapAll, Option.map_some] at hmapped
      simp only [wholeGroup, Tree.mapAll, hmapped, hleaves]
      rw [Tree.leavesOf_eq_of_criteria? hleaves] at hnamed hready
      exact combinedNested_respelled connective hnamed hready (h leaves hleaves)

mutual

/-- A tree whose groups of comparisons are grouped alike has the same query. -/
theorem query_respelled : (tree : Tree) →
    (∀ criteria ∈ tree.leaves, criteria.isNamed = true) →
    (∀ criteria ∈ tree.leaves, criteria.IsReady context.schema) →
    (∀ leaves ∈ tree.criteriaGroups, context.schema.GroupsAlike leaves) →
    context.query (tree.map Criteria.respelled) = context.query tree
  | .leaf criteria, hnamed, hready, _ => by
    have hleaf : criteria ∈ (Tree.leaf criteria).leaves := by simp [Tree.leaves]
    rw [Tree.map, SearchContext.query, SearchContext.query]
    exact criteria_respelled (hnamed criteria hleaf) (hready criteria hleaf)
  | .group connective children, hnamed, hready, hgroups => by
    obtain ⟨hhere, hbelow⟩ := List.forall_mem_append.mp hgroups
    have hwhole := wholeGroup_respelled connective hnamed hready fun leaves hleaves =>
      hhere leaves (Option.mem_toList.mpr hleaves)
    have hqueries := queries_respelled children hnamed hready hbelow
    rw [Tree.map, SearchContext.query, SearchContext.query, hwhole, hqueries]

/-- Trees whose groups of comparisons are grouped alike have the same queries. -/
theorem queries_respelled : (trees : List Tree) →
    (∀ criteria ∈ Tree.leavesOf trees, criteria.isNamed = true) →
    (∀ criteria ∈ Tree.leavesOf trees, criteria.IsReady context.schema) →
    (∀ leaves ∈ Tree.criteriaGroupsOf trees, context.schema.GroupsAlike leaves) →
    context.queries (Tree.mapAll Criteria.respelled trees) = context.queries trees
  | [], _, _, _ => rfl
  | tree :: trees, hnamed, hready, hgroups => by
    obtain ⟨hnamedFirst, hnamedRest⟩ := List.forall_mem_append.mp hnamed
    obtain ⟨hreadyFirst, hreadyRest⟩ := List.forall_mem_append.mp hready
    obtain ⟨hgroupsFirst, hgroupsRest⟩ := List.forall_mem_append.mp hgroups
    rw [Tree.mapAll, SearchContext.queries, SearchContext.queries,
      query_respelled tree hnamedFirst hreadyFirst hgroupsFirst,
      queries_respelled trees hnamedRest hreadyRest hgroupsRest]

end

end SearchContext

mutual

/-- Other comparisons stand in the same groups. -/
theorem Tree.criteriaGroups_map (change : Criteria → Criteria) : (tree : Tree) →
    (tree.map change).criteriaGroups = tree.criteriaGroups.map (List.map change)
  | .leaf criteria => rfl
  | .group connective children => by
    rw [Tree.map, Tree.criteriaGroups, Tree.criteriaGroups, List.map_append,
      Tree.criteriaGroupsOf_mapAll change children, Tree.criteria?_mapAll]
    cases Tree.criteria? children <;> rfl

/-- Other comparisons stand in the same groups of some trees. -/
theorem Tree.criteriaGroupsOf_mapAll (change : Criteria → Criteria) : (trees : List Tree) →
    Tree.criteriaGroupsOf (Tree.mapAll change trees) =
      (Tree.criteriaGroupsOf trees).map (List.map change)
  | [] => rfl
  | tree :: trees => by
    rw [Tree.mapAll, Tree.criteriaGroupsOf, Tree.criteriaGroupsOf, List.map_append,
      Tree.criteriaGroups_map change tree, Tree.criteriaGroupsOf_mapAll change trees]

end

/-- Comparisons with the same attributes are grouped alike. -/
theorem Schema.GroupsAlike.map {schema : Schema} {change : Criteria → Criteria}
    (hpath : ∀ criteria, (change criteria).path = criteria.path) (h : schema.GroupsAlike leaves) :
    schema.GroupsAlike (leaves.map change) := by
  have hspelling (criteria : Criteria) := Criteria.spelling_congr (hpath criteria)
  have hpaths : (leaves.map change).map Criteria.path = leaves.map Criteria.path := by
    simp [Function.comp_def, hpath]
  have hcanonicals :
      (leaves.map change).map Criteria.canonicalPath = leaves.map Criteria.canonicalPath := by
    simp [Function.comp_def, (hspelling _).2.1]
  rw [GroupsAlike, hpaths, hcanonicals]
  refine h.imp ?_ (Or.imp_left ?_)
  · rintro ⟨criteria, hcriteria, hselect⟩
    exact ⟨_, List.mem_map_of_mem hcriteria, (hspelling criteria).1.trans hselect⟩
  · intro hsame
    refine List.forall_mem_map.mpr fun criteria hcriteria => ?_
    rw [(hspelling criteria).2.1, hpath, hsame criteria hcriteria]

namespace Compiler

variable {compiler : Compiler} {rules : List Rule}

/-- The tree of the converted rules of a valid list has ready comparisons with the attributes of the
list, in the groups that they stand in there. -/
theorem tree_of_convertedRules (hvalid : validate rules compiler.schema = .ok ()) {tree : Tree}
    (htree : Tree.ofRules (convertedRules rules compiler.schema compiler.settings true) = .ok tree) :
    (∀ criteria ∈ tree.leaves, criteria.IsReady compiler.schema ∧
      ∃ before, Rule.criteria before ∈ rules ∧ criteria.path = before.path) ∧
    ∃ before, Tree.ofRules rules = .ok before ∧
      tree = before.map fun criteria =>
        criteria.converted compiler.schema compiler.settings true := by
  have hready := isReady_of_validate compiler.settings true hvalid
  have horder := checkOrder_of_validate (validate_convertedRules compiler.settings true hvalid)
  constructor
  · intro criteria hcriteria
    rw [Tree.mem_leaves_of_ofRules horder htree] at hcriteria
    obtain ⟨before, hbefore, rfl⟩ := Rule.criteria_mem_map.mp hcriteria
    exact ⟨hready _ hcriteria, before, hbefore, Criteria.path_converted _ _ _ _⟩
  · rw [Tree.ofRules_convertedRules] at htree
    obtain ⟨before, hbefore, hmap⟩ := Outcome.map_eq_ok_iff.mp htree
    exact ⟨before, hbefore, hmap.symm⟩

/-- A valid list has the same search query under the canonical spelling, or the same fault, when its
selections have keys and values, the identifying field is the same, and its groups of comparisons are
grouped alike. -/
theorem searchQuery_respelledRules (hvalid : validate rules compiler.schema = .ok ())
    (hnamed : ∀ criteria, Rule.criteria criteria ∈ rules → criteria.isNamed = true)
    (hidentity : ∀ criteria, Rule.criteria criteria ∈ rules →
      (criteria.path = compiler.settings.identityField ↔
        criteria.canonicalPath = compiler.settings.identityField))
    (hgroups : ∀ tree, Tree.ofRules rules = .ok tree →
      ∀ leaves ∈ tree.criteriaGroups, compiler.schema.GroupsAlike leaves) :
    compiler.searchQuery (respelledRules rules) = compiler.searchQuery rules := by
  have hrespelled := (validate_respelledRules_iff hvalid).mpr hnamed
  have hconverted : convertedRules (respelledRules rules) compiler.schema compiler.settings true =
      respelledRules (convertedRules rules compiler.schema compiler.settings true) :=
    convertedRules_respelledRules hvalid hnamed fun _ => hidentity
  rw [searchQuery_of_validate hrespelled, searchQuery_of_validate hvalid, hconverted,
    requiresScoring_respelledRules, respelledRules, Tree.ofRules_map]
  cases htree : Tree.ofRules (convertedRules rules compiler.schema compiler.settings true) with
  | error error => rfl
  | ok tree =>
    obtain ⟨hleaves, before, hbefore, rfl⟩ := tree_of_convertedRules hvalid htree
    refine SearchContext.query_respelled _ (fun criteria hcriteria => ?_)
      (fun criteria hcriteria => (hleaves criteria hcriteria).1) ?_
    · obtain ⟨_, single, hsingle, hpath⟩ := hleaves criteria hcriteria
      rw [(Criteria.spelling_congr hpath).2.2]
      exact hnamed single hsingle
    · rw [Tree.criteriaGroups_map]
      exact List.forall_mem_map.mpr fun leaves hmem =>
        (hgroups before hbefore leaves hmem).map fun _ => Criteria.path_converted _ _ _ _

end Compiler

end FilterRules
