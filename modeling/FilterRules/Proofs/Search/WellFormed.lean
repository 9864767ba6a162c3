import FilterRules.Proofs.Search.Leaves

/-!
# Well-formed search queries

A search engine takes any mix of the four lists of a combination, and a mix that was not meant has another
meaning: next to a requirement the alternatives become optional, and an empty combination asks for
nothing. A query has combinations of three kinds only: some queries joined by a connective, an exclusion
of one query, and a selected element with its comparison. So no combination is empty, alternatives stand
alone, and which of the two lists of requirements is used depends on ranking alone, except for a selected
element, whose requirements are never ranked.
-/

namespace FilterRules

namespace SearchQuery

mutual

/-- The combinations in a query, itself included. -/
def combinations : SearchQuery → List SearchQuery
  | .nested _ query => query.combinations
  | .bool must filter should mustNot =>
    .bool must filter should mustNot ::
      (combinationsOf must ++ combinationsOf filter ++ combinationsOf should ++
        combinationsOf mustNot)
  | _ => []

/-- The combinations in some queries. -/
def combinationsOf : List SearchQuery → List SearchQuery
  | [] => []
  | query :: queries => query.combinations ++ combinationsOf queries

end

/-- The combinations in some queries are those in each of them. -/
theorem combinationsOf_eq_flatMap (queries : List SearchQuery) :
    combinationsOf queries = queries.flatMap combinations := by
  induction queries with
  | nil => rfl
  | cons query queries ih => rw [combinationsOf, ih, List.flatMap_cons]

/-- Nested fields around a query add no combination. -/
@[simp] theorem combinations_foldr_nested (fields : List String) (query : SearchQuery) :
    (fields.foldr .nested query).combinations = query.combinations := by
  induction fields with
  | nil => rfl
  | cons path fields ih => rw [List.foldr_cons, combinations, ih]

end SearchQuery

namespace SearchContext

open SearchQuery (combinations combinations_foldr_nested combinationsOf_eq_flatMap)

variable {context : SearchContext} {criteria : Criteria} {leaves all : List Criteria}
  {connective : Connective} {root : String} {part : SearchQuery}

/-- Whether a query is the combination for a criteria that selects an element: the test of the key is
required, and the test of the field is required or excluded. -/
def IsSelectionOf (context : SearchContext) (criteria : Criteria) (part : SearchQuery) : Prop :=
  ∃ path key leaf, AttributePath.parse? criteria.path = some path ∧
    context.elementFilter path = .ok (some key) ∧ context.leaf criteria path.schemaPath = .ok leaf ∧
    part = if criteria.relationship.isNegated then .bool [] [key] [] [leaf] else .filtering [key, leaf]

/-- The combinations that the queries of some comparisons are made of. -/
inductive IsCombination (context : SearchContext) (all : List Criteria) : SearchQuery → Prop
  /-- Some queries joined by a connective. -/
  | joined (connective : Connective) {queries : List SearchQuery} (hne : queries ≠ []) :
      IsCombination context all (context.compound connective queries)
  /-- The exclusion of a query. -/
  | excluded (query : SearchQuery) : IsCombination context all (.noneOf [query])
  /-- A selected element with its comparison. -/
  | selection {criteria : Criteria} (hmem : criteria ∈ all) {part : SearchQuery}
      (hpart : context.IsSelectionOf criteria part) : IsCombination context all part

/-- Whether the combinations in a query are all of those kinds. -/
def Combines (context : SearchContext) (all : List Criteria) (query : SearchQuery) : Prop :=
  ∀ part ∈ query.combinations, context.IsCombination all part

/-- There are no combinations in a leaf. -/
theorem combinations_leaf {path : String} {leaf : SearchQuery}
    (h : context.leaf criteria path = .ok leaf) : leaf.combinations = [] := by
  have hleaf := isLeaf_leaf h
  cases leaf with
  | matchAll | nested | bool => cases hleaf
  | _ => rfl

/-- The combinations in joined queries are their own and those in each query. -/
theorem combinations_compound (connective : Connective) (queries : List SearchQuery) :
    (context.compound connective queries).combinations =
      context.compound connective queries :: queries.flatMap combinations := by
  cases connective with
  | and =>
    rw [compound]
    split <;> simp [combinations, combinationsOf_eq_flatMap]
  | or => simp [compound, combinations, combinationsOf_eq_flatMap]

/-- Some queries joined by a connective. -/
theorem combines_compound (connective : Connective) {queries : List SearchQuery} (hne : queries ≠ [])
    (h : ∀ query ∈ queries, context.Combines all query) :
    context.Combines all (context.compound connective queries) := by
  rw [Combines, combinations_compound]
  refine List.forall_mem_cons.mpr ⟨.joined connective hne, fun part hpart => ?_⟩
  obtain ⟨query, hquery, hpart⟩ := List.mem_flatMap.mp hpart
  exact h query hquery part hpart

/-- The exclusion of a query. -/
theorem combines_noneOf {query : SearchQuery} (h : context.Combines all query) :
    context.Combines all (.noneOf [query]) := by
  have hparts : (SearchQuery.noneOf [query]).combinations = .noneOf [query] :: query.combinations := by
    simp [SearchQuery.noneOf, combinations, SearchQuery.combinationsOf]
  rw [Combines, hparts]
  exact List.forall_mem_cons.mpr ⟨.excluded query, h⟩

/-- A query inside nested fields. -/
theorem combines_foldr_nested (fields : List String) {query : SearchQuery}
    (h : context.Combines all query) : context.Combines all (fields.foldr .nested query) := by
  rwa [Combines, combinations_foldr_nested]

/-- A criteria on its own. -/
theorem combines_criteria {query : SearchQuery} (h : context.criteria criteria = .ok query)
    (hmem : criteria ∈ all) : context.Combines all query := by
  obtain ⟨path, hpath, h⟩ := Outcome.bind_eq_ok_iff.mp h
  obtain ⟨leaf, hleaf, h⟩ := Outcome.bind_eq_ok_iff.mp h
  obtain ⟨selection, hselection, h⟩ := Outcome.bind_eq_ok_iff.mp h
  have hnone : leaf.combinations = [] := combinations_leaf hleaf
  cases selection with
  | none =>
    obtain rfl := Except.ok.inj h
    have hleafOnly : context.Combines all (context.wrapNested path.schemaPath leaf) :=
      combines_foldr_nested _ (by simp [Combines, hnone])
    split
    · exact combines_noneOf hleafOnly
    · exact hleafOnly
  | some key =>
    obtain rfl := Except.ok.inj h
    obtain ⟨keyPath, literal, _, _, rfl⟩ := (elementFilter_eq_some_iff hselection key).mp rfl
    have hpart : context.IsSelectionOf criteria (if criteria.relationship.isNegated then
        .bool [] [context.keyTerm keyPath literal] [] [leaf]
        else .filtering [context.keyTerm keyPath literal, leaf]) :=
      ⟨path, _, leaf, AttributePath.parseAt_eq_ok_iff.mp hpath, hselection, hleaf, rfl⟩
    refine combines_foldr_nested _ fun part hmade => ?_
    suffices hself : part = if criteria.relationship.isNegated then
        .bool [] [context.keyTerm keyPath literal] [] [leaf]
        else .filtering [context.keyTerm keyPath literal, leaf] from hself ▸ .selection hmem hpart
    -- The test of the key and that of the field are leaves, so the combination is the only one.
    revert hmade
    split <;> simp [SearchQuery.filtering, combinations, SearchQuery.combinationsOf, keyTerm, hnone]

/-- Inner leaves have no combinations. -/
theorem combines_innerLeaves {queries : List SearchQuery}
    (h : context.innerLeaves root leaves = .ok queries) :
    ∀ query ∈ queries, context.Combines all query := by
  induction leaves generalizing queries with
  | nil =>
    obtain rfl : [] = queries := Except.ok.inj h
    simp
  | cons criteria rest ih =>
    obtain ⟨leaf, others, hleaf, hothers, rfl⟩ := innerLeaves_cons h
    refine List.forall_mem_cons.mpr ⟨combines_foldr_nested _ ?_, ih hothers⟩
    simp [Combines, combinations_leaf hleaf]

/-- Each comparison has an inner leaf, among those that are not negated or among those that are. -/
theorem length_innerLeaves {positive excluded : List SearchQuery}
    (hpositive : context.innerLeaves root (leaves.filter fun c => !c.relationship.isNegated) =
      .ok positive)
    (hexcluded : context.innerLeaves root (leaves.filter fun c => c.relationship.isNegated) =
      .ok excluded) : positive.length + excluded.length = leaves.length := by
  rw [← (innerLeaves_eq_ok_iff.mp hpositive).length_eq, ← (innerLeaves_eq_ok_iff.mp hexcluded).length_eq,
    ← List.countP_eq_length_filter, ← List.countP_eq_length_filter, Nat.add_comm]
  simpa using (List.length_eq_countP_add_countP (fun c : Criteria => c.relationship.isNegated)).symm

/-- There are parts as long as there are inner leaves. -/
theorem parts_ne_nil {positive excluded : List SearchQuery} (h : 0 < positive.length + excluded.length) :
    context.parts root connective positive excluded ≠ [] := by
  cases positive with
  | nil => simpa [parts, List.length_pos_iff] using h
  | cons first rest => simp [parts]

/-- The parts of the query for comparisons below a nested field. -/
theorem combines_parts {positive excluded : List SearchQuery}
    (hpositive : ∀ query ∈ positive, context.Combines all query)
    (hexcluded : ∀ query ∈ excluded, context.Combines all query) :
    ∀ query ∈ context.parts root connective positive excluded, context.Combines all query := by
  refine List.forall_mem_append.mpr ⟨?_, List.forall_mem_map.mpr fun query hquery => ?_⟩
  · cases positive with
    | nil => simp
    | cons first rest =>
      have hjoined : context.Combines all (context.compound connective (first :: rest)) :=
        combines_compound connective (List.cons_ne_nil first rest) hpositive
      simpa using combines_foldr_nested [root] hjoined
  · have hown := hexcluded query hquery
    cases connective with
    | or => exact combines_noneOf (combines_foldr_nested [root] hown)
    | and =>
      refine combines_noneOf (combines_foldr_nested [root] (combines_compound .and (by simp) ?_))
      exact List.forall_mem_append.mpr ⟨hpositive, by simpa using hown⟩

/-- The query for comparisons below a nested field. -/
theorem combines_combine {query : SearchQuery} (hleaves : leaves ≠ [])
    (h : context.combine root connective leaves = .ok query) : context.Combines all query := by
  obtain ⟨positive, excluded, hpositive, hexcluded, rfl⟩ := combine_eq_ok_iff.mp h
  refine combines_foldr_nested _ ?_
  have hparts : ∀ part ∈ context.parts root connective positive excluded,
      context.Combines all part :=
    combines_parts (combines_innerLeaves hpositive) (combines_innerLeaves hexcluded)
  have hne : context.parts root connective positive excluded ≠ [] := by
    refine parts_ne_nil ?_
    rwa [length_innerLeaves hpositive hexcluded, List.length_pos_iff]
  rw [joinParts.eq_def]
  split
  case h_1 part hsingle => exact hparts part (by simp [hsingle])
  case h_2 => exact combines_compound connective hne hparts

mutual

/-- The combinations in the query of a tree are of the three kinds, with selections of its comparisons. -/
theorem combines_query : (tree : Tree) → (∀ criteria ∈ tree.leaves, criteria ∈ all) →
    {query : SearchQuery} → context.query tree = .ok query → context.Combines all query
  | .leaf criteria, hall, query, h => by
    rw [SearchContext.query] at h
    exact combines_criteria h (hall criteria (by simp [Tree.leaves]))
  | .group connective [], _, query, h => by
    rw [SearchContext.query] at h
    obtain rfl : .matchAll = query := Except.ok.inj h
    simp [Combines, combinations]
  | .group connective (first :: rest), hall, query, h => by
    rw [Tree.leaves] at hall
    rcases query_group_cases h with ⟨hnil, _⟩ | ⟨leaves, root, _, _, hroot, hcombined⟩ |
      ⟨_, queries, hqueries, rfl⟩
    · simp at hnil
    · refine combines_combine ?_ hcombined
      rintro rfl
      simp [Schema.groupingRoot?] at hroot
    · have hne : queries ≠ [] := by
        obtain ⟨query, others, _, _, rfl⟩ := queries_cons hqueries
        simp
      exact combines_compound connective hne (combines_queries (first :: rest) hall hqueries)

/-- The combinations in the queries of trees are of the three kinds. -/
theorem combines_queries : (trees : List Tree) →
    (∀ criteria ∈ Tree.leavesOf trees, criteria ∈ all) → {queries : List SearchQuery} →
    context.queries trees = .ok queries → ∀ query ∈ queries, context.Combines all query
  | [], _, queries, h => by
    obtain rfl : [] = queries := Except.ok.inj h
    simp
  | tree :: trees, hall, queries, h => by
    obtain ⟨query, others, hquery, hothers, rfl⟩ := queries_cons h
    obtain ⟨hfirst, hrest⟩ := List.forall_mem_append.mp hall
    exact List.forall_mem_cons.mpr
      ⟨combines_query tree hfirst hquery, combines_queries trees hrest hothers⟩

end

/-- A combination of the three kinds is not empty, has alternatives alone, and has ranked requirements
only where queries are ranked, and others there only for a selected element. -/
theorem IsCombination.isSound {must filter should mustNot : List SearchQuery}
    (h : context.IsCombination all (.bool must filter should mustNot)) :
    (must ≠ [] ∨ filter ≠ [] ∨ should ≠ [] ∨ mustNot ≠ []) ∧
      (should ≠ [] → must = [] ∧ filter = [] ∧ mustNot = []) ∧
      (must ≠ [] → context.scoring = true) ∧
      (context.scoring = true → filter ≠ [] → ∃ criteria ∈ all,
        context.IsSelectionOf criteria (.bool must filter should mustNot)) := by
  generalize hpart : SearchQuery.bool must filter should mustNot = part at h
  cases h with
  | @joined connective queries hne =>
    cases connective with
    | or =>
      obtain ⟨rfl, rfl, rfl, rfl⟩ := SearchQuery.bool.inj hpart
      simp [hne]
    | and =>
      rw [compound] at hpart
      split at hpart
      case isTrue hscoring =>
        obtain ⟨rfl, rfl, rfl, rfl⟩ := SearchQuery.bool.inj hpart
        simp [hne, hscoring]
      case isFalse hscoring =>
        obtain ⟨rfl, rfl, rfl, rfl⟩ := SearchQuery.bool.inj hpart
        simp [hne, hscoring]
  | excluded query =>
    obtain ⟨rfl, rfl, rfl, rfl⟩ := SearchQuery.bool.inj hpart
    simp
  | @selection criteria hmem _ hselection =>
    subst hpart
    refine ⟨?_, ?_, ?_, fun _ _ => ⟨criteria, hmem, hselection⟩⟩
    all_goals
      obtain ⟨path, key, leaf, _, _, _, hpart⟩ := hselection
      split at hpart <;> obtain ⟨rfl, rfl, rfl, rfl⟩ := SearchQuery.bool.inj hpart <;> simp

end SearchContext

namespace Compiler

variable {compiler : Compiler} {rules : List Rule} {query : SearchQuery}

/-- Whether a query is the combination for a criteria that selects an element: the leaf of the key is
required, and the leaf of the test is required or excluded. -/
def IsSelectionOf (compiler : Compiler) (criteria : Criteria) (part : SearchQuery) : Prop :=
  ∃ key leaf, compiler.IsKeyOf criteria key ∧ compiler.IsTestOf criteria leaf ∧
    part = if criteria.relationship.isNegated then .bool [] [key] [] [leaf] else .filtering [key, leaf]

/-- The combination for the selection of a converted comparison of a valid list. -/
theorem isSelectionOf_of_converted {scoring : Bool} {criteria : Criteria} {part : SearchQuery}
    (hvalid : validate rules compiler.schema = .ok ()) (hcriteria : Rule.criteria criteria ∈ rules)
    (h : SearchContext.IsSelectionOf ⟨compiler.schema, compiler.settings, scoring⟩
      (criteria.converted compiler.schema compiler.settings true) part) :
    compiler.IsSelectionOf criteria part := by
  obtain ⟨path, key, leaf, hpath, hkey, hleaf, hpart⟩ := h
  rw [Criteria.path_converted] at hpath
  rw [Criteria.relationship_converted] at hpart
  refine ⟨key, leaf, ?_, (isTestOf_iff scoring hvalid hcriteria hpath).mpr hleaf, hpart⟩
  exact (isKeyOf_iff scoring hpath).mpr
    ((SearchContext.elementFilter_eq_some_iff hkey key).mp rfl)

/-- No combination in the query of a list is empty, and alternatives stand alone in one. There are ranked
requirements only if the list has a full-text comparison, and then there are other requirements only in
the combination for a comparison that selects an element. -/
theorem combinations_searchQuery (h : compiler.searchQuery rules = .ok query)
    (must filter should mustNot : List SearchQuery)
    (hpart : .bool must filter should mustNot ∈ query.combinations) :
    (must ≠ [] ∨ filter ≠ [] ∨ should ≠ [] ∨ mustNot ≠ []) ∧
      (should ≠ [] → must = [] ∧ filter = [] ∧ mustNot = []) ∧
      (must ≠ [] → ∃ like, Rule.criteria like ∈ rules ∧ like.relationship = .like) ∧
      ((∃ like, Rule.criteria like ∈ rules ∧ like.relationship = .like) → filter ≠ [] →
        ∃ criteria, Rule.criteria criteria ∈ rules ∧
          compiler.IsSelectionOf criteria (.bool must filter should mustNot)) := by
  obtain ⟨hvalid, tree, hquery, hleaves⟩ := exists_tree_of_searchQuery h
  have hscoring : requiresScoring rules = true ↔
      ∃ like, Rule.criteria like ∈ rules ∧ like.relationship = .like := by
    rw [requiresScoring_iff]
    refine exists_congr fun like => and_congr_right fun _ => ?_
    cases like.relationship <;> simp [Relationship.isFullText]
  obtain ⟨hsome, halone, hranked, hselection⟩ :=
    (SearchContext.combines_query tree (fun _ hmem => hmem) hquery _ hpart).isSound
  refine ⟨hsome, halone, fun hmust => hscoring.mp (hranked hmust), fun hlike hfilter => ?_⟩
  obtain ⟨criteria, hcriteria, hmade⟩ := hselection (hscoring.mpr hlike) hfilter
  rw [hleaves] at hcriteria
  obtain ⟨before, hbefore, rfl⟩ := List.mem_map.mp hcriteria
  rw [Rule.mem_criteriaOf] at hbefore
  exact ⟨before, hbefore, isSelectionOf_of_converted hvalid hbefore hmade⟩

/-- A ranked list with alternatives below a nested field, one of which is excluded, and a negated
comparison on a selected element. -/
theorem combinations_searchQuery_offers :
    let compiler : Compiler := ⟨⟨[("title", .ofStrings), ("offers", .nested),
      ("offers.note", .ofStrings), ("offers.kind", .ofStrings)]⟩, {}⟩
    let titled : Criteria := ⟨"title", .like, .value (.text "Rust"), false⟩
    let noted : Criteria := ⟨"offers.note", .equal, .value (.text "signed"), false⟩
    let excluded : Criteria := ⟨"offers.kind", .notEqual, .value (.text "used"), false⟩
    let selected : Criteria := ⟨"offers[kind:list].note", .notEqual, .value (.text "new"), false⟩
    let rules : List Rule := [.separator .opening, .criteria titled, .logical .and,
      .separator .opening, .criteria noted, .logical .or, .criteria excluded, .separator .closing,
      .logical .and, .criteria selected, .separator .closing]
    let kind (value : String) : SearchQuery := .term "offers.kind.keyword" (.text value)
    let note (value : String) : SearchQuery := .term "offers.note.keyword" (.text value)
    let selection : SearchQuery := .bool [] [kind "list"] [] [note "new"]
    let query : SearchQuery := .bool [.fullText "title" (.text "Rust"),
      .bool [] [] [.nested "offers" (.bool [] [] [note "signed"] []),
        .noneOf [.nested "offers" (kind "used")]] [],
      .nested "offers" selection] [] [] []
    compiler.searchQuery rules = .ok query ∧ query.combinations.length = 5 ∧
      selection ∈ query.combinations ∧
      ∃ criteria, Rule.criteria criteria ∈ rules ∧ compiler.IsSelectionOf criteria selection := by
  intro compiler titled noted excluded selected rules kind note selection query
  have hquery : compiler.searchQuery rules = .ok query := by cbv
  have hpart : selection ∈ query.combinations := by
    simp [query, selection, SearchQuery.combinations, SearchQuery.combinationsOf]
  have hsound := combinations_searchQuery hquery _ _ _ _ hpart
  have hlike : ∃ like, Rule.criteria like ∈ rules ∧ like.relationship = .like :=
    ⟨titled, by simp [rules], rfl⟩
  exact ⟨hquery, rfl, hpart, hsound.2.2.2 hlike (by simp)⟩

end Compiler

end FilterRules
