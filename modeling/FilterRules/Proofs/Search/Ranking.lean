import FilterRules.Proofs.Search.Scope
import FilterRules.Proofs.Search.Selection

/-!
# What counts towards the rank

A full-text comparison in a list lets every conjunction of its query count towards the rank. A leaf does
so unless some combination around it only requires or excludes it. In such a query every comparison that
is not negated and selects no element counts, whatever groups and nested fields are around it, and no
other comparison does: an excluded leaf never counts, and neither does one that is required together with
the key of a selected element, which is a filter in every query.
-/

namespace FilterRules

namespace SearchQuery

mutual

/-- The leaves of a query that count towards the rank, in order: those that stand in no requirement and
no exclusion of a combination. -/
def ranked : SearchQuery → List SearchQuery
  | .matchAll => []
  | .nested _ query => query.ranked
  | .bool must _ should _ => rankedOf must ++ rankedOf should
  | leaf => [leaf]

/-- The leaves of some queries that count towards the rank. -/
def rankedOf : List SearchQuery → List SearchQuery
  | [] => []
  | query :: queries => query.ranked ++ rankedOf queries

end

/-- What counts in some queries is what counts in each of them. -/
theorem rankedOf_eq_flatMap (queries : List SearchQuery) :
    rankedOf queries = queries.flatMap ranked := by
  induction queries with
  | nil => rfl
  | cons query queries ih => rw [rankedOf, ih, List.flatMap_cons]

/-- Nested fields around a query do not change what counts. -/
@[simp] theorem ranked_foldr_nested (fields : List String) (query : SearchQuery) :
    (fields.foldr .nested query).ranked = query.ranked := by
  induction fields with
  | nil => rfl
  | cons path fields ih => rw [List.foldr_cons, ranked, ih]

/-- What is excluded does not count. -/
@[simp] theorem ranked_noneOf (queries : List SearchQuery) : (noneOf queries).ranked = [] := rfl

/-- What is only required does not count. -/
@[simp] theorem ranked_filtering (queries : List SearchQuery) : (filtering queries).ranked = [] := rfl

end SearchQuery

/-- Whether a comparison counts towards the rank of a query that is ranked. -/
def Criteria.counts (criteria : Criteria) : Bool :=
  !criteria.relationship.isNegated && !criteria.selects

namespace SearchContext

open SearchQuery (ranked ranked_foldr_nested rankedOf_eq_flatMap)

variable {context : SearchContext} {criteria : Criteria} {leaves : List Criteria}
  {connective : Connective} {root : String} {query : SearchQuery}

/-- Whether a query is the leaf of a criteria, on the attribute as it is spelled or on the field that
the schema knows. -/
def IsLeafOf (context : SearchContext) (criteria : Criteria) (leaf : SearchQuery) : Prop :=
  context.leaf criteria criteria.path = .ok leaf ∨
    ∃ path, AttributePath.parse? criteria.path = some path ∧
      context.leaf criteria path.schemaPath = .ok leaf

/-- A leaf counts. -/
theorem ranked_leaf {path : String} {leaf : SearchQuery}
    (h : context.leaf criteria path = .ok leaf) : leaf.ranked = [leaf] := by
  have hleaf := isLeaf_leaf h
  cases leaf with
  | matchAll | nested | bool => cases hleaf
  | _ => rfl

/-- When queries are ranked, all that counts in joined queries counts in their combination. -/
theorem ranked_compound (hscoring : context.scoring = true) (connective : Connective)
    (queries : List SearchQuery) :
    (context.compound connective queries).ranked = queries.flatMap ranked := by
  cases connective <;> simp [compound, hscoring, ranked, rankedOf_eq_flatMap, SearchQuery.rankedOf]

/-- When queries are ranked, all that counts in joined parts counts in their combination. -/
theorem ranked_joinParts (hscoring : context.scoring = true) (connective : Connective)
    (parts : List SearchQuery) :
    (context.joinParts connective parts).ranked = parts.flatMap ranked := by
  rw [joinParts.eq_def]
  split
  · simp
  · exact ranked_compound hscoring connective _

/-- A path has a selection to put into a query exactly when it selects an element. -/
theorem isSome_of_elementFilter {path : AttributePath} {selection : Option SearchQuery}
    (h : context.elementFilter path = .ok selection) : selection.isSome = path.isFiltered := by
  obtain ⟨found, hfound, h⟩ := Outcome.bind_eq_ok_iff.mp h
  cases path with
  | plain segments =>
    obtain rfl : none = selection := Except.ok.inj h
    rfl
  | filtered array key value element =>
    have hliteral : (AttributePath.filtered array key value element).filterLiteral context.schema =
        .ok found := by
      rw [AttributePath.emittedFilter] at hfound
      split at hfound
      · rwa [← Except.ok.inj hfound]
      · simp at hfound
    obtain ⟨literal, rfl⟩ := AttributePath.exists_literal_of_filterLiteral rfl hliteral
    obtain rfl := Except.ok.inj h
    rfl

/-- A comparison on its own counts when it is not negated and selects no element. -/
theorem ranked_criteria (h : context.criteria criteria = .ok query) :
    List.Forall₂ context.IsLeafOf ([criteria].filter Criteria.counts) query.ranked := by
  obtain ⟨path, hpath, h⟩ := Outcome.bind_eq_ok_iff.mp h
  obtain ⟨leaf, hleaf, h⟩ := Outcome.bind_eq_ok_iff.mp h
  obtain ⟨selection, hselection, h⟩ := Outcome.bind_eq_ok_iff.mp h
  rw [AttributePath.parseAt_eq_ok_iff] at hpath
  have hselects : criteria.selects = selection.isSome := by
    rw [Criteria.selects, hpath, Option.any_some, isSome_of_elementFilter hselection]
  have hown : context.IsLeafOf criteria leaf := .inr ⟨path, hpath, hleaf⟩
  cases selection with
  | some filter =>
    obtain rfl := Except.ok.inj h
    have hcounts : criteria.counts = false := by simp [Criteria.counts, hselects]
    cases criteria.relationship.isNegated <;> simp [wrapNested, hcounts, ranked, SearchQuery.rankedOf]
  | none =>
    obtain rfl := Except.ok.inj h
    cases hnegated : criteria.relationship.isNegated with
    | true => simp [Criteria.counts, hnegated]
    | false => simp [Criteria.counts, hnegated, hselects, wrapNested, ranked_leaf hleaf, hown]

/-- The inner leaves of comparisons count. -/
theorem ranked_innerLeaves {queries : List SearchQuery}
    (h : context.innerLeaves root leaves = .ok queries) :
    List.Forall₂ (fun criteria leaf => context.leaf criteria criteria.path = .ok leaf) leaves
      (queries.flatMap ranked) := by
  refine forall₂_innerLeaves (fun criteria path leaf fields hleaf => ?_) h
  rw [ranked_foldr_nested, ranked_leaf hleaf]

/-- What counts in the parts of the query for comparisons below a nested field is what counts in the
leaves that one element has to satisfy. -/
theorem ranked_parts (hscoring : context.scoring = true) (positive excluded : List SearchQuery) :
    (context.parts root connective positive excluded).flatMap ranked = positive.flatMap ranked := by
  have hexcluded : (excluded.map (context.exclusion root connective positive)).flatMap ranked = [] := by
    simp [List.flatMap_map, exclusion]
  rw [parts, List.flatMap_append, hexcluded, List.append_nil]
  cases positive with
  | nil => rfl
  | cons first rest => simp [ranked, ranked_compound hscoring]

/-- In the query for comparisons below a nested field those that are not negated count. -/
theorem ranked_combine (hscoring : context.scoring = true)
    (h : context.combine root connective leaves = .ok query) :
    List.Forall₂ (fun criteria leaf => context.leaf criteria criteria.path = .ok leaf)
      (leaves.filter fun criteria => !criteria.relationship.isNegated) query.ranked := by
  obtain ⟨positive, excluded, hpositive, _, rfl⟩ := combine_eq_ok_iff.mp h
  rw [wrapNested, ranked_foldr_nested, ranked_joinParts hscoring, ranked_parts hscoring]
  exact ranked_innerLeaves hpositive

mutual

/-- In the query of a tree the comparisons that are not negated and select no element count, in order,
and nothing else does. -/
theorem ranked_query (hscoring : context.scoring = true) : (tree : Tree) → {query : SearchQuery} →
    context.query tree = .ok query →
    List.Forall₂ context.IsLeafOf (tree.leaves.filter Criteria.counts) query.ranked
  | .leaf criteria, query, h => by
    rw [SearchContext.query] at h
    exact ranked_criteria h
  | .group connective children, query, h => by
    rw [Tree.leaves]
    rcases query_group_cases h with ⟨rfl, rfl⟩ | ⟨leaves, root, hleaves, hselects, _, hcombined⟩ |
      ⟨_, queries, hqueries, rfl⟩
    · exact .nil
    · have hcounts : leaves.filter Criteria.counts =
          leaves.filter fun criteria => !criteria.relationship.isNegated :=
        List.filter_congr fun criteria hcriteria => by simp [Criteria.counts, hselects criteria hcriteria]
      rw [Tree.leavesOf_eq_of_criteria? hleaves, hcounts]
      exact (ranked_combine hscoring hcombined).imp fun criteria leaf => Or.inl
    · rw [ranked_compound hscoring]
      exact ranked_queries hscoring children hqueries

/-- In the queries of trees the comparisons that are not negated and select no element count. -/
theorem ranked_queries (hscoring : context.scoring = true) : (trees : List Tree) →
    {queries : List SearchQuery} → context.queries trees = .ok queries →
    List.Forall₂ context.IsLeafOf ((Tree.leavesOf trees).filter Criteria.counts)
      (queries.flatMap ranked)
  | [], queries, h => by
    obtain rfl : [] = queries := Except.ok.inj h
    exact .nil
  | tree :: trees, queries, h => by
    obtain ⟨query, others, hquery, hothers, rfl⟩ := queries_cons h
    rw [Tree.leavesOf, List.filter_append, List.flatMap_cons]
    exact List.rel_append (ranked_query hscoring tree hquery) (ranked_queries hscoring trees hothers)

end

end SearchContext

namespace Compiler

variable {compiler : Compiler} {rules : List Rule} {query : SearchQuery}

/-- Whether a query is the leaf of a criteria with converted literals, on the attribute as it is spelled
or on the field that the schema knows. -/
def IsLeafOf (compiler : Compiler) (criteria : Criteria) (leaf : SearchQuery) : Prop :=
  SearchContext.IsLeafOf ⟨compiler.schema, compiler.settings, true⟩
    (criteria.converted compiler.schema compiler.settings true) leaf

/-- The leaf of a full-text comparison is a full-text query. -/
theorem IsLeafOf.exists_fullText {criteria : Criteria} {leaf : SearchQuery}
    (h : compiler.IsLeafOf criteria leaf) (hlike : criteria.relationship = .like) :
    ∃ field value, leaf = .fullText field value := by
  have hleaf : ∃ field, SearchContext.leaf ⟨compiler.schema, compiler.settings, true⟩
      (criteria.converted compiler.schema compiler.settings true) field = .ok leaf := by
    rcases h with hleaf | ⟨_, _, hleaf⟩ <;> exact ⟨_, hleaf⟩
  obtain ⟨field, hleaf⟩ := hleaf
  rw [SearchContext.leaf, Criteria.relationship_converted, hlike] at hleaf
  obtain ⟨value, _, rfl⟩ := Outcome.map_eq_ok_iff.mp hleaf
  exact ⟨_, value, rfl⟩

/-- In the query of a list with a full-text comparison the comparisons that are not negated and select
no element count towards the rank, in order, and nothing else does. So a full-text comparison counts
when it selects no element. -/
theorem ranked_searchQuery {like : Criteria} (hlike : Rule.criteria like ∈ rules)
    (hfullText : like.relationship = .like) (h : compiler.searchQuery rules = .ok query) :
    List.Forall₂ compiler.IsLeafOf ((Rule.criteriaOf rules).filter Criteria.counts) query.ranked ∧
      (like.selects = false → ∃ field value, .fullText field value ∈ query.ranked ∧
        compiler.IsLeafOf like (.fullText field value)) := by
  obtain ⟨_, tree, hquery, hleaves⟩ := exists_tree_of_searchQuery h
  have hscoring : requiresScoring rules = true :=
    List.any_eq_true.mpr ⟨.criteria like, hlike, congrArg Relationship.isFullText hfullText⟩
  rw [hscoring] at hquery
  have hranked := SearchContext.ranked_query rfl tree hquery
  have hcounts : (Criteria.counts ∘ fun criteria =>
      criteria.converted compiler.schema compiler.settings true) = Criteria.counts := by
    funext criteria
    have hspelling :=
      Criteria.spelling_congr (criteria.path_converted compiler.schema compiler.settings true)
    simp [Criteria.counts, hspelling.1]
  have hall : List.Forall₂ compiler.IsLeafOf ((Rule.criteriaOf rules).filter Criteria.counts)
      query.ranked := by
    rwa [hleaves, List.filter_map, List.forall₂_map_left_iff, hcounts] at hranked
  refine ⟨hall, fun hselects => ?_⟩
  have hlikeCounts : like.counts = true := by
    rw [Criteria.counts, hfullText, hselects]
    rfl
  obtain ⟨leaf, hleaf, hown⟩ := Outcome.exists_mem_of_forall₂ hall
    (List.mem_filter.mpr ⟨Rule.mem_criteriaOf.mpr hlike, hlikeCounts⟩)
  obtain ⟨field, value, rfl⟩ := hown.exists_fullText hfullText
  exact ⟨field, value, hleaf, hown⟩

/-- A full-text comparison that is combined with an excluded one below a nested field, beside one on a
selected element, which does not count. -/
theorem ranked_searchQuery_offers :
    let compiler : Compiler := ⟨⟨[("title", .ofStrings), ("offers", .nested),
      ("offers.note", .ofStrings), ("offers.kind", .ofStrings)]⟩, {}⟩
    let noted : Criteria := ⟨"offers.note", .like, .value (.text "signed"), false⟩
    let excluded : Criteria := ⟨"offers.kind", .notEqual, .value (.text "used"), false⟩
    let selected : Criteria := ⟨"offers[kind:list].note", .equal, .value (.text "new"), false⟩
    let titled : Criteria := ⟨"title", .startsWith, .value (.text "Rust"), false⟩
    let rules : List Rule := [.separator .opening, .separator .opening, .criteria noted,
      .logical .and, .criteria excluded, .separator .closing, .logical .and, .criteria selected,
      .logical .and, .criteria titled, .separator .closing]
    let note : SearchQuery := .fullText "offers.note" (.text "signed")
    let title : SearchQuery := .startsWith "title.keyword" "Rust"
    let scored (queries : List SearchQuery) : SearchQuery := .bool queries [] [] []
    let query : SearchQuery := scored [
      scored [.nested "offers" (scored [note]),
        .noneOf [.nested "offers" (scored [note, .term "offers.kind.keyword" (.text "used")])]],
      .nested "offers" (.filtering [.term "offers.kind.keyword" (.text "list"),
        .term "offers.note.keyword" (.text "new")]),
      title]
    compiler.searchQuery rules = .ok query ∧ query.ranked = [note, title] ∧
      ∃ field value, .fullText field value ∈ query.ranked ∧
        compiler.IsLeafOf noted (.fullText field value) := by
  intro compiler noted excluded selected titled rules note title scored query
  have hquery : compiler.searchQuery rules = .ok query := by cbv
  have hmem : Rule.criteria noted ∈ rules := by simp [rules]
  exact ⟨hquery, rfl, (ranked_searchQuery hmem rfl hquery).2 (by decide +kernel)⟩

/-- A full-text comparison on a selected element is only required, next to the key of the element, and
nothing counts towards the rank. -/
theorem ranked_searchQuery_selection :
    let compiler : Compiler := ⟨⟨[("offers", .nested), ("offers.note", .ofStrings),
      ("offers.kind", .ofStrings)]⟩, {}⟩
    let noted : Criteria := ⟨"offers[kind:list].note", .like, .value (.text "signed"), false⟩
    let query : SearchQuery := .bool [.nested "offers" (.filtering
      [.term "offers.kind.keyword" (.text "list"), .fullText "offers.note" (.text "signed")])] [] [] []
    compiler.searchQuery [.separator .opening, .criteria noted, .separator .closing] = .ok query ∧
      query.ranked = [] := by
  exact ⟨by cbv, rfl⟩

end Compiler

end FilterRules
