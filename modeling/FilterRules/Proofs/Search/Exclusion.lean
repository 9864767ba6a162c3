import FilterRules.Proofs.Search.Element

/-!
# What a group of negated comparisons excludes

A negated comparison on its own excludes a document when its test holds at the end of any chain of
elements. Several of them below one nested field become one query that excludes elements of that field
only, inside the nested fields above it: it asks for one chain of elements at whose end nothing is
excluded. Where no nested field lies above the shared one there is nothing to choose, and the query holds
in the same documents as the separate ones. Otherwise it differs from them, already in the document
without any elements, which no test excludes and in which no chain exists.
-/

namespace FilterRules

namespace NestedDocument

/-- The document without elements in which no leaf holds. -/
def bare : NestedDocument := ⟨fun _ => false, fun _ => []⟩

/-- No chain of elements starts at a document without elements. -/
theorem reach_bare (path : String) (paths : List String) : bare.reach (path :: paths) = [] := rfl

end NestedDocument

/-- A connective holds of several truths. -/
theorem Connective.holds_map_true {α : Type} (connective : Connective) {items : List α}
    (hne : items ≠ []) : connective.holds (items.map fun _ => true) = true := by
  obtain ⟨first, rest, rfl⟩ := List.exists_cons_of_ne_nil hne
  cases connective <;> simp [holds]

namespace SearchContext

variable {context : SearchContext} {criteria : Criteria} {leaves : List Criteria}
  {connective : Connective} {root : String} {query : SearchQuery} {document : NestedDocument}

/-- Without comparisons that are not negated, an exclusion holds when no element satisfies what is
excluded, whatever the connective. -/
theorem holdsIn_exclusion_nil (excluded : SearchQuery) :
    (context.exclusion root connective [] excluded).holdsIn document =
      !(document.elements root).any excluded.holdsIn := by
  cases connective with
  | and =>
    rw [holdsIn_exclusion_and]
    simp
  | or => simp [exclusion, SearchQuery.holdsIn_noneOf, SearchQuery.holdsIn]

/-- The query for negated comparisons below a nested field holds in a document when, at the end of one
chain of elements that leads to the field, its connective holds of what the single comparisons exclude
there. -/
theorem holdsIn_combine_negated
    (hnegated : ∀ criteria ∈ leaves, criteria.relationship.isNegated = true) (hne : leaves ≠ [])
    (h : context.combine root connective leaves = .ok query) :
    query.holdsIn document = true ↔
      ∃ outer ∈ document.reach (context.schema.nestedAncestors root),
        connective.holds (leaves.map fun criteria =>
          !(outer.elements root).any (context.elementPasses root criteria)) = true := by
  obtain ⟨positive, excluded, hpositive, hexcluded, rfl⟩ := combine_eq_ok_iff.mp h
  rw [List.filter_eq_nil_iff.mpr (by simpa using hnegated)] at hpositive
  rw [List.filter_eq_self.mpr hnegated] at hexcluded
  obtain rfl : [] = positive := Except.ok.inj hpositive
  have hparts : context.parts root connective [] excluded =
      excluded.map (context.exclusion root connective []) := rfl
  have hsome : excluded ≠ [] := mt (innerLeaves_eq_nil_iff hexcluded).mp hne
  have hvalues (outer : NestedDocument) :
      (excluded.map (context.exclusion root connective [])).map (·.holdsIn outer) =
        leaves.map fun criteria =>
          !(outer.elements root).any (context.elementPasses root criteria) := by
    have hpasses := congrArg (List.map fun test => !(outer.elements root).any test)
      (map_holdsIn_innerLeaves hexcluded)
    simpa [Function.comp_def, holdsIn_exclusion_nil] using hpasses
  rw [wrapNested, SearchQuery.holdsIn_foldr_nested, List.any_eq_true, hparts]
  refine exists_congr fun outer => and_congr_right fun _ => ?_
  rw [holdsIn_joinParts (by simpa using hsome), hvalues]

/-- The query for negated comparisons excludes the document without elements when a nested field lies
above theirs, since no chain leads to their field there. -/
theorem nestedAncestors_eq_nil_of_bare
    (hnegated : ∀ criteria ∈ leaves, criteria.relationship.isNegated = true) (hne : leaves ≠ [])
    (h : context.combine root connective leaves = .ok query) (hbare : query.holdsIn .bare = true) :
    context.schema.nestedAncestors root = [] := by
  obtain ⟨outer, houter, _⟩ := (holdsIn_combine_negated hnegated hne h).mp hbare
  cases habove : context.schema.nestedAncestors root with
  | nil => rfl
  | cons path paths =>
    rw [habove, NestedDocument.reach_bare] at houter
    simp at houter

/-- The separate query of a negated comparison below a nested field holds in a document when no element
of the field, at the end of any chain, passes its test. -/
theorem holdsIn_negated_of_groupingRoot?
    (hroot : context.schema.groupingRoot? .nested (leaves.map Criteria.path) = some root)
    (hmem : criteria ∈ leaves) (hnegated : criteria.relationship.isNegated = true) :
    (context.testHolds (context.schema.nestedAncestors criteria.path) criteria document !=
        criteria.relationship.isNegated) =
      !(document.reach (context.schema.nestedAncestors root)).any fun outer =>
        (outer.elements root).any (context.elementPasses root criteria) := by
  have hpasses : context.testHolds (context.schema.nestedAncestors criteria.path) criteria document =
      (document.reach (context.schema.nestedAncestors root)).any fun outer =>
        (outer.elements root).any (context.elementPasses root criteria) := by
    rw [Bool.eq_iff_iff, testHolds_of_groupingRoot? hroot hmem]
    simp only [List.any_eq_true, NestedDocument.mem_reach_concat]
    grind
  rw [hpasses, hnegated, Bool.bne_true]

/-- The connective of the separate queries of negated plain comparisons that share a nested field holds
in a document when it holds of what each of them excludes from all elements of that field. -/
theorem exists_queries_holdsIn_negated (hplain : ∀ criteria ∈ leaves, criteria.isPlain = true)
    (hnegated : ∀ criteria ∈ leaves, criteria.relationship.isNegated = true) (hne : leaves ≠ [])
    (hroot : context.schema.groupingRoot? .nested (leaves.map Criteria.path) = some root)
    {inner : List SearchQuery} (hinner : context.innerLeaves root leaves = .ok inner) :
    ∃ queries, (∀ scoring, SearchContext.queries ⟨context.schema, context.settings, scoring⟩
        (leaves.map .leaf) = .ok queries) ∧
      ∀ document, (context.compound connective queries).holdsIn document =
        connective.holds (leaves.map fun criteria =>
          !(document.reach (context.schema.nestedAncestors root)).any fun outer =>
            (outer.elements root).any (context.elementPasses root criteria)) := by
  obtain ⟨queries, hqueries, hvalues⟩ := exists_queries_holdsIn hplain hinner
  have hsome : queries ≠ [] := by
    rintro rfl
    simpa [hne] using (hvalues .bare).symm
  refine ⟨queries, hqueries, fun document => ?_⟩
  rw [holdsIn_compound connective hsome, hvalues]
  exact congrArg _ (List.map_congr_left fun criteria hcriteria =>
    holdsIn_negated_of_groupingRoot? hroot hcriteria (hnegated criteria hcriteria))

/-- One query for negated plain comparisons that share a nested field holds in a document when, at the
end of one chain of elements that leads to the field, the connective holds of what the comparisons
exclude from the elements of the field there. It holds in the same documents as the connective of their
separate queries exactly when no nested field lies above the shared one. -/
theorem holdsIn_negated_iff (hplain : ∀ criteria ∈ leaves, criteria.isPlain = true)
    (hnegated : ∀ criteria ∈ leaves, criteria.relationship.isNegated = true)
    (hroot : context.schema.groupingRoot? .nested (leaves.map Criteria.path) = some root) :
    ((∀ criteria ∈ leaves, criteria.hasShape) →
      ∃ query, context.query (.group connective (leaves.map .leaf)) = .ok query) ∧
    ∀ query, context.query (.group connective (leaves.map .leaf)) = .ok query →
      (∀ document, query.holdsIn document = true ↔
        ∃ outer ∈ document.reach (context.schema.nestedAncestors root),
          connective.holds (leaves.map fun criteria =>
            !(outer.elements root).any (context.elementPasses root criteria)) = true) ∧
      ∃ queries, (∀ scoring, SearchContext.queries ⟨context.schema, context.settings, scoring⟩
          (leaves.map .leaf) = .ok queries) ∧
        ((∀ document, query.holdsIn document =
            (context.compound connective queries).holdsIn document) ↔
          context.schema.nestedAncestors root = []) := by
  rw [query_eq_combine hplain hroot]
  have hne : leaves ≠ [] := by
    rintro rfl
    simp [Schema.groupingRoot?] at hroot
  refine ⟨exists_combine context root connective, fun query h =>
    ⟨fun document => holdsIn_combine_negated hnegated hne h, ?_⟩⟩
  obtain ⟨_, inner, _, hinner, _⟩ := combine_eq_ok_iff.mp h
  rw [List.filter_eq_self.mpr hnegated] at hinner
  obtain ⟨queries, hqueries, hseparate⟩ :=
    exists_queries_holdsIn_negated hplain hnegated hne hroot hinner
  refine ⟨queries, hqueries, fun hsame => ?_, fun htop document => ?_⟩
  · -- The separate queries exclude by elements, of which the bare document has none.
    refine nestedAncestors_eq_nil_of_bare hnegated hne h ?_
    rw [hsame, hseparate]
    cases context.schema.nestedAncestors root <;>
      simpa [NestedDocument.reach, NestedDocument.bare] using connective.holds_map_true hne
  · rw [Bool.eq_iff_iff, holdsIn_combine_negated hnegated hne h, hseparate, htop]
    simp [NestedDocument.reach]

/-- Alternatives that exclude elements of a list on top of the document, one of them by the elements'
own elements. -/
theorem holdsIn_negated_iff_editions :
    let context : SearchContext := ⟨⟨[("editions", .nested), ("editions.contributors", .nested),
      ("editions.contributors.name", .ofStrings), ("editions.isbn", .ofStrings)]⟩, {}, true⟩
    let printed : Criteria := ⟨"editions.isbn", .notEqual, .value (.text "978"), true⟩
    let named : Criteria :=
      ⟨"editions.contributors.name", .noneOf, .values [.text "Ada", .text "Bea"], true⟩
    let leaves : List Criteria := [printed, named]
    let isbn : SearchQuery := .term "editions.isbn.keyword" (.text "978")
    let name : SearchQuery := .nested "editions.contributors"
      (.terms "editions.contributors.name.keyword" [.text "Ada", .text "Bea"])
    let query : SearchQuery := .bool [] []
      [.noneOf [.nested "editions" isbn], .noneOf [.nested "editions" name]] []
    (∀ criteria ∈ leaves, criteria.isPlain = true) ∧
      (∀ criteria ∈ leaves, criteria.relationship.isNegated = true) ∧
      context.schema.groupingRoot? .nested (leaves.map Criteria.path) = some "editions" ∧
      context.query (.group .or (leaves.map .leaf)) = .ok query ∧
      ∃ queries, SearchContext.queries context (leaves.map .leaf) = .ok queries ∧
        ∀ document, query.holdsIn document = (context.compound .or queries).holdsIn document := by
  intro context printed named leaves isbn name query
  have hplain : ∀ criteria ∈ leaves, criteria.isPlain = true := by decide +kernel
  have hnegated : ∀ criteria ∈ leaves, criteria.relationship.isNegated = true := by decide +kernel
  have hroot : context.schema.groupingRoot? .nested (leaves.map Criteria.path) =
    some "editions" := by decide +kernel
  have hquery : context.query (.group .or (leaves.map .leaf)) = .ok query := by cbv
  obtain ⟨_, queries, hqueries, hsame⟩ :=
    (holdsIn_negated_iff hplain hnegated hroot).2 query hquery
  exact ⟨hplain, hnegated, hroot, hquery, queries, hqueries true, hsame.mpr (by decide +kernel)⟩

/-- A document without any editions has no contributor to exclude. The two negated comparisons hold in
it each on its own, and their common query does not. -/
theorem holdsIn_negated_below_editions :
    let context : SearchContext := ⟨⟨[("editions", .nested), ("editions.contributors", .nested),
      ("editions.contributors.name", .ofStrings), ("editions.contributors.role", .ofStrings)]⟩, {},
      false⟩
    let named : Criteria := ⟨"editions.contributors.name", .notEqual, .value (.text "Ada"), true⟩
    let cast : Criteria := ⟨"editions.contributors.role", .notEqual, .value (.text "editor"), true⟩
    let leaves : List Criteria := [named, cast]
    let name : SearchQuery := .term "editions.contributors.name.keyword" (.text "Ada")
    let role : SearchQuery := .term "editions.contributors.role.keyword" (.text "editor")
    let below (query : SearchQuery) : SearchQuery := .nested "editions.contributors" query
    let query : SearchQuery := .nested "editions" (.filtering
      [.noneOf [below (.filtering [name])], .noneOf [below (.filtering [role])]])
    let queries : List SearchQuery :=
      [.noneOf [.nested "editions" (below name)], .noneOf [.nested "editions" (below role)]]
    (∀ criteria ∈ leaves, criteria.isPlain = true) ∧
      (∀ criteria ∈ leaves, criteria.relationship.isNegated = true) ∧
      context.schema.groupingRoot? .nested (leaves.map Criteria.path) =
        some "editions.contributors" ∧
      context.query (.group .and (leaves.map .leaf)) = .ok query ∧
      SearchContext.queries context (leaves.map .leaf) = .ok queries ∧
      query.holdsIn .bare = false ∧ (context.compound .and queries).holdsIn .bare = true := by
  refine ⟨by decide +kernel, by decide +kernel, by decide +kernel, by cbv, by cbv, rfl, rfl⟩

end SearchContext

end FilterRules
