import FilterRules.Proofs.Search.NestedDocument
import FilterRules.Proofs.Search.Scope

/-!
# Ranking does not change what matches

One full-text comparison makes a whole query ranked, and then every conjunction in it stands among the
ranked requirements of its combination instead of the others. That is all: with the ranked requirements of
every combination put in front of the others, the ranked query of a tree becomes the query that is not
ranked, also below nested fields and in the exclusions that copy what is required. Either both have the
same fault, or they hold in the same documents.
-/

namespace FilterRules

namespace SearchQuery

mutual

/-- The query with the ranked requirements of every combination put in front of the others. -/
def unranked : SearchQuery → SearchQuery
  | .nested path query => .nested path query.unranked
  | .bool must filter should mustNot =>
    .bool [] (unrankedAll must ++ unrankedAll filter) (unrankedAll should) (unrankedAll mustNot)
  | query => query

/-- Queries without ranked requirements. -/
def unrankedAll : List SearchQuery → List SearchQuery
  | [] => []
  | query :: queries => query.unranked :: unrankedAll queries

end

/-- Some queries change each by itself. -/
theorem unrankedAll_eq_map (queries : List SearchQuery) : unrankedAll queries = queries.map unranked := by
  induction queries with
  | nil => rfl
  | cons query queries ih => rw [unrankedAll, ih, List.map_cons]

/-- Nested fields stay around a query. -/
theorem unranked_foldr_nested (fields : List String) (query : SearchQuery) :
    (fields.foldr .nested query).unranked = fields.foldr .nested query.unranked := by
  induction fields with
  | nil => rfl
  | cons path fields ih => rw [List.foldr_cons, unranked, ih, List.foldr_cons]

/-- Queries that must not hold stay excluded. -/
theorem unranked_noneOf (queries : List SearchQuery) :
    (noneOf queries).unranked = noneOf (queries.map unranked) := by
  simp [noneOf, unranked, unrankedAll, unrankedAll_eq_map]

mutual

/-- A query holds in the same documents without ranked requirements. -/
theorem holdsIn_unranked : (query : SearchQuery) → query.unranked.holdsIn = query.holdsIn
  | .nested path query => by
    funext document
    rw [unranked, holdsIn, holdsIn, holdsIn_unranked query]
  | .bool must filter should mustNot => by
    funext document
    have hmust := valuesIn_unranked must document
    have hfilter := valuesIn_unranked filter document
    have hshould := valuesIn_unranked should document
    have hmustNot := valuesIn_unranked mustNot document
    have hrequired : (unrankedAll must ++ unrankedAll filter).isEmpty =
        (must.isEmpty && filter.isEmpty) := by cases must <;> cases filter <;> rfl
    have hoptional : (unrankedAll should).isEmpty = should.isEmpty := by cases should <;> rfl
    simp only [valuesIn_eq_map] at hmust hfilter hshould hmustNot
    simp only [unranked, holdsIn, valuesIn_eq_map, List.map_append, hmust, hfilter, hshould, hmustNot,
      hrequired, hoptional]
    simp [Bool.or_assoc]
  | .matchAll | .term _ _ | .terms _ _ | .termsSet _ _ | .fullText _ _ | .startsWith _ _
  | .range _ _ _ => rfl

/-- Some queries hold in the same documents without ranked requirements. -/
theorem valuesIn_unranked : (queries : List SearchQuery) → (document : NestedDocument) →
    valuesIn (unrankedAll queries) document = valuesIn queries document
  | [], _ => rfl
  | query :: queries, document => by
    rw [unrankedAll, valuesIn, valuesIn, holdsIn_unranked query, valuesIn_unranked queries]

end

end SearchQuery

namespace SearchContext

open SearchQuery (unranked unrankedAll_eq_map unranked_foldr_nested unranked_noneOf holdsIn_unranked)

variable {context : SearchContext} {criteria : Criteria} {leaves : List Criteria}
  {connective : Connective} {root : String}

/-- The same schema and settings for a query that is not ranked. -/
def unscored (context : SearchContext) : SearchContext := { context with scoring := false }

/-- The schema stays the same. -/
@[simp] theorem schema_unscored (context : SearchContext) : context.unscored.schema = context.schema :=
  rfl

/-- A leaf has no requirements. -/
theorem unranked_leaf {path : String} {leaf : SearchQuery}
    (h : context.leaf criteria path = .ok leaf) : leaf.unranked = leaf := by
  have hleaf := isLeaf_leaf h
  cases leaf with
  | matchAll | nested | bool => cases hleaf
  | _ => rfl

/-- The query of a criteria on its own has no ranked requirements. -/
theorem unranked_criteria {query : SearchQuery} (h : context.criteria criteria = .ok query) :
    query.unranked = query := by
  obtain ⟨path, _, h⟩ := Outcome.bind_eq_ok_iff.mp h
  obtain ⟨leaf, hleaf, h⟩ := Outcome.bind_eq_ok_iff.mp h
  obtain ⟨selection, hselection, h⟩ := Outcome.bind_eq_ok_iff.mp h
  have hsame : leaf.unranked = leaf := unranked_leaf hleaf
  cases selection with
  | none =>
    obtain rfl := Except.ok.inj h
    cases criteria.relationship.isNegated <;>
      simp [wrapNested, unranked_noneOf, unranked_foldr_nested, hsame]
  | some filter =>
    obtain ⟨keyPath, literal, _, _, rfl⟩ := (elementFilter_eq_some_iff hselection filter).mp rfl
    obtain rfl := Except.ok.inj h
    cases criteria.relationship.isNegated <;>
      simp [wrapNested, unranked_foldr_nested, SearchQuery.filtering, keyTerm, unranked,
        SearchQuery.unrankedAll, hsame]

/-- Joined queries stand among the requirements that are not ranked, or stay alternatives. -/
theorem unranked_compound (connective : Connective) (queries : List SearchQuery) :
    (context.compound connective queries).unranked =
      context.unscored.compound connective (queries.map unranked) := by
  cases connective with
  | and =>
    rw [compound]
    split <;> simp [unscored, compound, unranked, unrankedAll_eq_map]
  | or => simp [compound, unranked, unrankedAll_eq_map]

/-- Inner leaves have no requirements. -/
theorem unranked_innerLeaves {queries : List SearchQuery}
    (h : context.innerLeaves root leaves = .ok queries) : queries.map unranked = queries := by
  induction leaves generalizing queries with
  | nil =>
    obtain rfl : [] = queries := Except.ok.inj h
    rfl
  | cons criteria rest ih =>
    obtain ⟨leaf, others, hleaf, hothers, rfl⟩ := innerLeaves_cons h
    rw [List.map_cons, unranked_foldr_nested, unranked_leaf hleaf, ih hothers]

/-- Ranking does not change inner leaves. -/
theorem innerLeaves_unscored (root : String) (leaves : List Criteria) :
    context.unscored.innerLeaves root leaves = context.innerLeaves root leaves := by
  induction leaves with
  | nil => rfl
  | cons criteria rest ih =>
    rw [innerLeaves, innerLeaves, ih]
    rfl

/-- The parts of the query for comparisons below a nested field: a required one, and the exclusions with
their copies of it. -/
theorem unranked_parts (positive excluded : List SearchQuery) :
    (context.parts root connective positive excluded).map unranked =
      context.unscored.parts root connective (positive.map unranked) (excluded.map unranked) := by
  have hexclusion (query : SearchQuery) :
      (context.exclusion root connective positive query).unranked =
        context.unscored.exclusion root connective (positive.map unranked) query.unranked := by
    cases connective <;> simp [exclusion, unranked_noneOf, unranked, unranked_compound]
  rw [parts, parts, List.map_append, List.map_map, List.map_map]
  congr 1
  · cases positive with
    | nil => rfl
    | cons first rest => simp [unranked, unranked_compound]
  · exact List.map_congr_left fun query _ => hexclusion query

/-- Joined parts change as joined queries do; a single part stands for itself. -/
theorem unranked_joinParts (connective : Connective) (parts : List SearchQuery) :
    (context.joinParts connective parts).unranked =
      context.unscored.joinParts connective (parts.map unranked) := by
  match parts with
  | [] => exact unranked_compound connective []
  | [part] => rfl
  | first :: second :: rest => exact unranked_compound connective (first :: second :: rest)

/-- Comparisons below a nested field have the query that is not ranked, or the same fault. -/
theorem unranked_combine (root : String) (connective : Connective) (leaves : List Criteria) :
    (context.combine root connective leaves).map unranked =
      context.unscored.combine root connective leaves := by
  rw [combine_eq, combine_eq, innerLeaves_unscored, innerLeaves_unscored]
  cases hpositive : context.innerLeaves root (leaves.filter fun c => !c.relationship.isNegated) with
  | error error => rfl
  | ok positive =>
    cases hexcluded : context.innerLeaves root (leaves.filter fun c => c.relationship.isNegated) with
    | error error => rfl
    | ok excluded =>
      have hparts : (context.parts root connective positive excluded).map unranked =
          context.unscored.parts root connective (positive.map unranked) (excluded.map unranked) :=
        unranked_parts positive excluded
      rw [unranked_innerLeaves hpositive, unranked_innerLeaves hexcluded] at hparts
      simp only [Outcome.ok_bind, Outcome.pure_eq_ok, Except.map, wrapNested, unranked_foldr_nested,
        unranked_joinParts, hparts]
      rfl

/-- Several comparisons have one query that is not ranked, or none, or the same fault. -/
theorem unranked_combinedNested (connective : Connective) (leaves : List Criteria) :
    (context.combinedNested connective leaves).map (Option.map unranked) =
      context.unscored.combinedNested connective leaves := by
  rw [combinedNested, combinedNested, schema_unscored]
  cases paths leaves with
  | error error => rfl
  | ok found =>
    rw [Outcome.ok_bind, Outcome.ok_bind]
    split
    · rfl
    · cases context.schema.groupingRoot? .nested (leaves.map Criteria.path) with
      | none => rfl
      | some root =>
        simp only [← unranked_combine]
        cases context.combine root connective leaves <;> rfl

/-- A group has a query as a whole that is not ranked, or none, or the same fault. -/
theorem unranked_wholeGroup (connective : Connective) (children : List Tree) :
    (context.wholeGroup connective children).map (Option.map unranked) =
      context.unscored.wholeGroup connective children := by
  rw [wholeGroup.eq_def, wholeGroup.eq_def]
  split
  · rfl
  · exact unranked_combinedNested _ _
  · rfl

mutual

/-- Without its ranked requirements the query of a tree is the one that is not ranked. -/
theorem unranked_query : (tree : Tree) →
    (context.query tree).map unranked = context.unscored.query tree
  | .leaf criteria => by
    have hsame : context.unscored.criteria criteria = context.criteria criteria := rfl
    rw [SearchContext.query, SearchContext.query, hsame]
    cases hquery : context.criteria criteria with
    | error error => rfl
    | ok query => rw [Except.map, unranked_criteria hquery]
  | .group connective children => by
    rw [SearchContext.query, SearchContext.query, ← unranked_wholeGroup, ← unranked_queries children]
    cases context.wholeGroup connective children with
    | error error => rfl
    | ok whole =>
      cases whole with
      | some query => rfl
      | none =>
        cases context.queries children with
        | error error => rfl
        | ok queries => exact congrArg Except.ok (unranked_compound connective queries)

/-- Without their ranked requirements the queries of trees are those that are not ranked. -/
theorem unranked_queries : (trees : List Tree) →
    (context.queries trees).map (List.map unranked) = context.unscored.queries trees
  | [] => by
    rw [SearchContext.queries, SearchContext.queries]
    rfl
  | tree :: trees => by
    rw [SearchContext.queries, SearchContext.queries, ← unranked_query tree, ← unranked_queries trees]
    cases context.query tree with
    | error error => rfl
    | ok query => cases context.queries trees <;> rfl

end

/-- Ranked or not, a tree has the same fault, or queries that become equal once the ranked requirements of
every combination are put in front of the others; so they hold in the same documents. -/
theorem query_scoring (schema : Schema) (settings : Settings) (tree : Tree) :
    (query ⟨schema, settings, true⟩ tree).map unranked =
        (query ⟨schema, settings, false⟩ tree).map unranked ∧
      (query ⟨schema, settings, true⟩ tree).map SearchQuery.holdsIn =
        (query ⟨schema, settings, false⟩ tree).map SearchQuery.holdsIn := by
  have hsame : (query ⟨schema, settings, true⟩ tree).map unranked =
      (query ⟨schema, settings, false⟩ tree).map unranked := by
    have hplain : (query ⟨schema, settings, false⟩ tree).map unranked =
        query ⟨schema, settings, false⟩ tree := unranked_query tree
    exact (unranked_query tree).trans hplain.symm
  have hholds (found : Except CompileError SearchQuery) :
      found.map SearchQuery.holdsIn = (found.map unranked).map SearchQuery.holdsIn := by
    cases found with
    | error error => rfl
    | ok query => exact congrArg Except.ok (holdsIn_unranked query).symm
  exact ⟨hsame, by rw [hholds, hsame, ← hholds]⟩

end SearchContext

end FilterRules
