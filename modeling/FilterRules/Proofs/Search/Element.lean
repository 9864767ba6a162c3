import FilterRules.Proofs.Search.Acceptance
import FilterRules.Proofs.Search.Combination
import FilterRules.Proofs.Search.NestedDocument

/-!
# One element for all comparisons of a group

Comparisons on fields below one nested field, their root, become one query on the elements of the root.
Under a conjunction one and the same element has to pass all of their tests, although a negated
comparison is excluded by a query of its own. Under a disjunction it makes no difference that the
alternatives share the element and all elements around it: the query holds where the query of one of
the comparisons on its own does.
-/

namespace FilterRules

namespace SearchContext

variable {context : SearchContext} {criteria : Criteria} {leaves : List Criteria}
  {connective : Connective} {root : String} {query : SearchQuery} {document : NestedDocument}

/-- Whether the test of a criteria, negated or not, holds at the end of a chain of elements. -/
def testHolds (context : SearchContext) (fields : List String) (criteria : Criteria)
    (document : NestedDocument) : Bool :=
  (context.leaf criteria criteria.path).toOption.any fun leaf =>
    (document.reach fields).any (·.holds leaf)

/-- Whether an element of `root` passes the test of a criteria, itself or in its own elements at the
nested fields between `root` and the attribute. -/
def elementPasses (context : SearchContext) (root : String) (criteria : Criteria) :
    NestedDocument → Bool :=
  context.testHolds (context.schema.nestedBetween root criteria.path) criteria

/-- Whether an element of `root` passes the tests of all comparisons that are not negated. -/
def ElementQualifies (context : SearchContext) (root : String) (leaves : List Criteria)
    (element : NestedDocument) : Prop :=
  ∀ criteria ∈ leaves, criteria.relationship.isNegated = false →
    context.elementPasses root criteria element = true

instance (context : SearchContext) (root : String) (leaves : List Criteria)
    (element : NestedDocument) : Decidable (context.ElementQualifies root leaves element) :=
  inferInstanceAs (Decidable (∀ criteria ∈ leaves, criteria.relationship.isNegated = false →
    context.elementPasses root criteria element = true))

/-- Whether an element of `root` satisfies a criteria: it passes the test, or does not pass it when the
criteria is negated. -/
def elementSatisfies (context : SearchContext) (root : String) (criteria : Criteria)
    (element : NestedDocument) : Bool :=
  context.elementPasses root criteria element != criteria.relationship.isNegated

/-- The test of a criteria with a leaf holds where the leaf does. -/
theorem testHolds_of_leaf {leaf : SearchQuery} (h : context.leaf criteria criteria.path = .ok leaf)
    (fields : List String) :
    context.testHolds fields criteria = fun document => (document.reach fields).any (·.holds leaf) := by
  funext document
  simp [testHolds, h, Except.toOption]

/-- A leaf inside nested fields holds where its test does. -/
theorem holdsIn_wrapped {leaf : SearchQuery} (h : context.leaf criteria criteria.path = .ok leaf)
    (fields : List String) :
    (fields.foldr .nested leaf).holdsIn = context.testHolds fields criteria := by
  funext document
  rw [SearchQuery.holdsIn_foldr_nested, testHolds_of_leaf h]
  exact congrArg _ (funext fun element => holdsIn_leaf h)

/-- A test holds at the end of a chain along more paths when it does at the end of the rest of it. -/
theorem testHolds_append (outer inner : List String) :
    context.testHolds (outer ++ inner) criteria document =
      (document.reach outer).any (context.testHolds inner criteria) := by
  cases hleaf : context.leaf criteria criteria.path with
  | error error => simp [testHolds, hleaf, Except.toOption]
  | ok leaf =>
    simp only [testHolds_of_leaf hleaf, NestedDocument.reach_append, List.any_flatMap]

/-- Inner leaves hold in the elements that pass the tests. -/
theorem map_holdsIn_innerLeaves {queries : List SearchQuery}
    (h : context.innerLeaves root leaves = .ok queries) :
    queries.map SearchQuery.holdsIn = leaves.map (context.elementPasses root) := by
  induction leaves generalizing queries with
  | nil =>
    obtain rfl : [] = queries := Except.ok.inj h
    rfl
  | cons criteria rest ih =>
    obtain ⟨leaf, others, hleaf, hothers, rfl⟩ := innerLeaves_cons h
    rw [List.map_cons, List.map_cons, ih hothers, holdsIn_wrapped hleaf]
    rfl

/-- What is true of where each inner leaf holds is true of where each test is passed. -/
theorem forall_mem_innerLeaves {queries : List SearchQuery}
    (h : context.innerLeaves root leaves = .ok queries) (P : (NestedDocument → Bool) → Prop) :
    (∀ query ∈ queries, P query.holdsIn) ↔
      ∀ criteria ∈ leaves, P (context.elementPasses root criteria) := by
  rw [← List.forall_mem_map, map_holdsIn_innerLeaves h, List.forall_mem_map]

/-- There is an inner leaf for every criteria. -/
theorem innerLeaves_eq_nil_iff {queries : List SearchQuery}
    (h : context.innerLeaves root leaves = .ok queries) : queries = [] ↔ leaves = [] := by
  have hlength := congrArg List.length (map_holdsIn_innerLeaves h)
  rw [List.length_map, List.length_map] at hlength
  rw [← List.length_eq_zero_iff, hlength, List.length_eq_zero_iff]

/-- Joined parts hold as the connective says. -/
theorem holdsIn_joinParts {parts : List SearchQuery} (hne : parts ≠ []) :
    (context.joinParts connective parts).holdsIn document =
      connective.holds (parts.map (·.holdsIn document)) := by
  rw [joinParts.eq_def]
  split
  · cases connective <;> simp [Connective.holds]
  · exact holdsIn_compound connective hne

/-- The part for what is required holds when some element satisfies it. -/
theorem holdsIn_required {positive : List SearchQuery} (hne : positive ≠ []) :
    (SearchQuery.nested root (context.compound connective positive)).holdsIn document =
      (document.elements root).any fun element =>
        connective.holds (positive.map (·.holdsIn element)) := by
  rw [SearchQuery.holdsIn]
  exact congrArg _ (funext fun element => holdsIn_compound connective hne)

/-- An exclusion under a conjunction holds when no element satisfies what is required together with
what is excluded. -/
theorem holdsIn_exclusion_and (positive : List SearchQuery) (excluded : SearchQuery) :
    (context.exclusion root .and positive excluded).holdsIn document =
      !(document.elements root).any fun element =>
        positive.all (·.holdsIn element) && excluded.holdsIn element := by
  have hinner : (context.compound .and (positive ++ [excluded])).holdsIn = fun element =>
      positive.all (·.holdsIn element) && excluded.holdsIn element := by
    funext element
    rw [holdsIn_compound .and (by simp)]
    simp [Connective.holds, List.all_map]
  rw [exclusion, SearchQuery.holdsIn_noneOf]
  simp only [List.any_cons, List.any_nil, Bool.or_false, SearchQuery.holdsIn, hinner]

/-- An element satisfies all that is required when it passes the tests that are not negated. -/
theorem forall_holdsIn_iff_qualifies {positive : List SearchQuery}
    (h : context.innerLeaves root (leaves.filter fun c => !c.relationship.isNegated) = .ok positive)
    (element : NestedDocument) :
    (∀ query ∈ positive, query.holdsIn element = true) ↔
      context.ElementQualifies root leaves element := by
  rw [forall_mem_innerLeaves h fun test => test element = true]
  simp [ElementQualifies]

/-- All exclusions under a conjunction hold when no element passes the tests that are not negated
together with the test of a negated one. -/
theorem forall_holdsIn_exclusion_and {positive excluded : List SearchQuery}
    (hpositive : context.innerLeaves root (leaves.filter fun c => !c.relationship.isNegated) =
      .ok positive)
    (hexcluded : context.innerLeaves root (leaves.filter fun c => c.relationship.isNegated) =
      .ok excluded) :
    (∀ query ∈ excluded, (context.exclusion root .and positive query).holdsIn document = true) ↔
      ∀ element ∈ document.elements root, context.ElementQualifies root leaves element →
        ∀ criteria ∈ leaves, criteria.relationship.isNegated = true →
          context.elementPasses root criteria element = false := by
  simp only [holdsIn_exclusion_and]
  rw [forall_mem_innerLeaves hexcluded fun test => (!(document.elements root).any fun element =>
    positive.all (·.holdsIn element) && test element) = true]
  simp only [Bool.not_eq_true', List.any_eq_false, Bool.and_eq_true, List.all_eq_true,
    forall_holdsIn_iff_qualifies hpositive, List.mem_filter, not_and, Bool.not_eq_true]
  -- What is left is the order of the two quantifiers.
  constructor
  · intro h element helement hqualifies criteria hcriteria hnegated
    exact h criteria ⟨hcriteria, hnegated⟩ element helement hqualifies
  · intro h criteria hcriteria element helement hqualifies
    exact h element helement hqualifies criteria hcriteria.1 hcriteria.2

/-- The query for a conjunction below a nested field holds in a document when, under one chain of
elements that leads to the field, some element passes what is required and none that does passes what
is excluded. -/
theorem holdsIn_combine_and (hasserted : ∃ criteria ∈ leaves, criteria.relationship.isNegated = false)
    (h : context.combine root .and leaves = .ok query) (document : NestedDocument) :
    query.holdsIn document = true ↔
      ∃ outer ∈ document.reach (context.schema.nestedAncestors root),
        (∃ element ∈ outer.elements root, context.ElementQualifies root leaves element) ∧
        ∀ element ∈ outer.elements root, context.ElementQualifies root leaves element →
          ∀ criteria ∈ leaves, criteria.relationship.isNegated = true →
            context.elementPasses root criteria element = false := by
  obtain ⟨positive, excluded, hpositive, hexcluded, rfl⟩ := combine_eq_ok_iff.mp h
  have hne : positive ≠ [] := by
    rw [Ne, innerLeaves_eq_nil_iff hpositive]
    simpa using hasserted
  have hrequired : positive.isEmpty = false := by simpa using hne
  rw [wrapNested, SearchQuery.holdsIn_foldr_nested, List.any_eq_true]
  refine exists_congr fun outer => and_congr_right fun _ => ?_
  rw [holdsIn_joinParts (by simp [parts, hrequired]), parts, hrequired,
    ← forall_holdsIn_exclusion_and hpositive hexcluded]
  simp only [Bool.false_eq_true, if_false, List.singleton_append, List.map_cons, List.map_map,
    Connective.holds, List.all_cons, List.all_map, holdsIn_required hne, List.any_eq_true,
    Bool.and_eq_true, List.all_eq_true, Function.comp_def, id,
    forall_holdsIn_iff_qualifies hpositive]

/-- One query for a conjunction of plain comparisons that share a nested field, one of which at least is
not negated, holds in a document exactly when, under one chain of elements that leads to the field,
some element passes the tests that are not negated, and no element that does so passes the test of a
negated one. So where it holds, one single element satisfies all of the comparisons. -/
theorem holdsIn_conjunction_iff (hplain : ∀ criteria ∈ leaves, criteria.isPlain = true)
    (hasserted : ∃ criteria ∈ leaves, criteria.relationship.isNegated = false)
    (hroot : context.schema.groupingRoot? .nested (leaves.map Criteria.path) = some root) :
    ((∀ criteria ∈ leaves, criteria.hasShape) →
      ∃ query, context.query (.group .and (leaves.map .leaf)) = .ok query) ∧
    ∀ query, context.query (.group .and (leaves.map .leaf)) = .ok query → ∀ document,
      (query.holdsIn document = true ↔
        ∃ outer ∈ document.reach (context.schema.nestedAncestors root),
          (∃ element ∈ outer.elements root, context.ElementQualifies root leaves element) ∧
          ∀ element ∈ outer.elements root, context.ElementQualifies root leaves element →
            ∀ criteria ∈ leaves, criteria.relationship.isNegated = true →
              context.elementPasses root criteria element = false) ∧
      (query.holdsIn document = true →
        ∃ outer ∈ document.reach (context.schema.nestedAncestors root),
          ∃ element ∈ outer.elements root,
            ∀ criteria ∈ leaves, context.elementSatisfies root criteria element = true) := by
  rw [query_eq_combine hplain hroot]
  refine ⟨exists_combine context root .and, fun query h document => ?_⟩
  have hiff := holdsIn_combine_and hasserted h document
  refine ⟨hiff, fun hholds => ?_⟩
  obtain ⟨outer, houter, ⟨element, helement, hqualifies⟩, hexcluded⟩ := hiff.mp hholds
  refine ⟨outer, houter, element, helement, fun criteria hcriteria => ?_⟩
  cases hnegated : criteria.relationship.isNegated with
  | false => simp [elementSatisfies, hnegated, hqualifies criteria hcriteria hnegated]
  | true =>
    simp [elementSatisfies, hnegated,
      hexcluded element helement hqualifies criteria hcriteria hnegated]

/-- A printing by Ada who is not its editor, in one edition of a book and spread over two of them. -/
theorem holdsIn_conjunction_iff_editions :
    let context : SearchContext := ⟨⟨[("editions", .nested), ("editions.contributors", .nested),
      ("editions.contributors.name", .ofStrings), ("editions.contributors.role", .ofStrings),
      ("editions.isbn", .ofStrings)]⟩, {}, false⟩
    let printed : Criteria := ⟨"editions.isbn", .equal, .value (.text "978"), true⟩
    let named : Criteria := ⟨"editions.contributors.name", .equal, .value (.text "Ada"), true⟩
    let cast : Criteria := ⟨"editions.contributors.role", .notEqual, .value (.text "editor"), true⟩
    let leaves : List Criteria := [printed, named, cast]
    let having (field : String) (elements : String → List NestedDocument) : NestedDocument :=
      ⟨fun | .term found _ => found == field | _ => false, elements⟩
    let ada : NestedDocument := having "editions.contributors.name.keyword" fun _ => []
    let edition (contributors : List NestedDocument) : NestedDocument :=
      having "editions.isbn.keyword" fun path =>
        if path = "editions.contributors" then contributors else []
    let unprinted : NestedDocument := having "" fun path =>
      if path = "editions.contributors" then [ada] else []
    let book (editions : List NestedDocument) : NestedDocument :=
      having "" fun path => if path = "editions" then editions else []
    (∀ criteria ∈ leaves, criteria.isPlain = true) ∧
      (∃ criteria ∈ leaves, criteria.relationship.isNegated = false) ∧
      context.schema.groupingRoot? .nested (leaves.map Criteria.path) = some "editions" ∧
      ∃ query, context.query (.group .and (leaves.map .leaf)) = .ok query ∧
        query.holdsIn (book [edition [ada]]) = true ∧
        query.holdsIn (book [edition [], unprinted]) = false := by
  intro context printed named cast leaves having ada edition unprinted book
  have hplain : ∀ criteria ∈ leaves, criteria.isPlain = true := by decide +kernel
  have hasserted : ∃ criteria ∈ leaves, criteria.relationship.isNegated = false := by decide +kernel
  have hroot : context.schema.groupingRoot? .nested (leaves.map Criteria.path) =
    some "editions" := by decide +kernel
  obtain ⟨hexists, hholds⟩ := holdsIn_conjunction_iff hplain hasserted hroot
  obtain ⟨query, hquery⟩ := hexists (by decide +kernel)
  refine ⟨hplain, hasserted, hroot, query, hquery, ?_, ?_⟩
  · exact (hholds query hquery _).1.mpr (by decide +kernel)
  · refine Bool.eq_false_iff.mpr fun h => absurd ((hholds query hquery _).2 h) ?_
    decide +kernel

/-- The query for a disjunction below a nested field without negation holds in a document when some
element of the field passes one of the tests. -/
theorem holdsIn_combine_or
    (hasserted : ∀ criteria ∈ leaves, criteria.relationship.isNegated = false) (hne : leaves ≠ [])
    (h : context.combine root .or leaves = .ok query) :
    query.holdsIn document = true ↔
      ∃ element ∈ document.reach (context.schema.nestedAncestors root ++ [root]),
        ∃ criteria ∈ leaves, context.elementPasses root criteria element = true := by
  obtain ⟨positive, excluded, hpositive, hexcluded, rfl⟩ := combine_eq_ok_iff.mp h
  rw [List.filter_eq_self.mpr (by simpa using hasserted)] at hpositive
  rw [List.filter_eq_nil_iff.mpr (by simpa using hasserted)] at hexcluded
  obtain rfl : [] = excluded := Except.ok.inj hexcluded
  have hne : positive ≠ [] := mt (innerLeaves_eq_nil_iff hpositive).mp hne
  have hnone (element : NestedDocument) : (∃ query ∈ positive, query.holdsIn element = true) ↔
      ∃ criteria ∈ leaves, context.elementPasses root criteria element = true := by
    have hall := forall_mem_innerLeaves hpositive (fun test => ¬ test element = true)
    simpa using not_congr hall
  have hcombined : (context.joinParts .or (context.parts root .or positive [])).holdsIn =
      fun outer => (outer.elements root).any fun element =>
        Connective.or.holds (positive.map (·.holdsIn element)) := by
    funext outer
    rw [holdsIn_joinParts (by simp [parts, hne])]
    simp [parts, hne, Connective.holds, holdsIn_required]
  rw [wrapNested, SearchQuery.holdsIn_foldr_nested, hcombined]
  simp only [List.any_eq_true, NestedDocument.mem_reach_concat, Connective.holds, List.any_map,
    Function.comp_def, id, hnone]
  grind

/-- Ranking does not change the query of a criteria on its own. -/
theorem criteria_scoring (scoring : Bool) :
    SearchContext.criteria ⟨context.schema, context.settings, scoring⟩ = context.criteria := rfl

/-- The query of a plain comparison on its own holds in a document when its test does, or does not when
it is negated. -/
theorem exists_criteria_holdsIn {leaf : SearchQuery} (hplain : criteria.isPlain = true)
    (hleaf : context.leaf criteria criteria.path = .ok leaf) :
    ∃ query, context.criteria criteria = .ok query ∧ ∀ document, query.holdsIn document =
      (context.testHolds (context.schema.nestedAncestors criteria.path) criteria document !=
        criteria.relationship.isNegated) := by
  rw [criteria_of_isPlain hplain, hleaf]
  refine ⟨_, rfl, fun document => ?_⟩
  rw [← holdsIn_wrapped hleaf]
  cases criteria.relationship.isNegated <;> simp [SearchQuery.holdsIn_noneOf, wrapNested]

/-- Plain comparisons with inner leaves have queries on their own, ranked or not, which hold in a document
as their tests do. -/
theorem exists_queries_holdsIn {inner : List SearchQuery}
    (hplain : ∀ criteria ∈ leaves, criteria.isPlain = true)
    (h : context.innerLeaves root leaves = .ok inner) :
    ∃ queries, (∀ scoring, SearchContext.queries ⟨context.schema, context.settings, scoring⟩
        (leaves.map .leaf) = .ok queries) ∧
      ∀ document, queries.map (·.holdsIn document) = leaves.map fun criteria =>
        context.testHolds (context.schema.nestedAncestors criteria.path) criteria document !=
          criteria.relationship.isNegated := by
  induction leaves generalizing inner with
  | nil => exact ⟨[], fun _ => rfl, fun _ => rfl⟩
  | cons criteria rest ih =>
    obtain ⟨hfirst, hrest⟩ := List.forall_mem_cons.mp hplain
    obtain ⟨leaf, others, hleaf, hothers, _⟩ := innerLeaves_cons h
    obtain ⟨query, hquery, hvalue⟩ := exists_criteria_holdsIn hfirst hleaf
    obtain ⟨queries, hqueries, hvalues⟩ := ih hrest hothers
    refine ⟨query :: queries, fun scoring => ?_, fun document => ?_⟩
    · rw [← criteria_scoring scoring] at hquery
      rw [List.map_cons, SearchContext.queries, SearchContext.query, hquery, hqueries scoring]
      rfl
    · rw [List.map_cons, List.map_cons, hvalue, hvalues]

/-- The test of a comparison below a nested field holds in a document when some element of the field
passes it. -/
theorem testHolds_of_groupingRoot?
    (hroot : context.schema.groupingRoot? .nested (leaves.map Criteria.path) = some root)
    (hmem : criteria ∈ leaves) :
    context.testHolds (context.schema.nestedAncestors criteria.path) criteria document = true ↔
      ∃ element ∈ document.reach (context.schema.nestedAncestors root ++ [root]),
        context.elementPasses root criteria element = true := by
  rw [Schema.nestedAncestors_of_groupingRoot? hroot (List.mem_map_of_mem hmem), List.append_cons,
    testHolds_append, List.any_eq_true]
  rfl

/-- One query for a disjunction of plain comparisons that share a nested field, none of them negated,
holds in exactly the documents in which the query of one of them on its own does. -/
theorem holdsIn_disjunction_iff (hplain : ∀ criteria ∈ leaves, criteria.isPlain = true)
    (hasserted : ∀ criteria ∈ leaves, criteria.relationship.isNegated = false)
    (hroot : context.schema.groupingRoot? .nested (leaves.map Criteria.path) = some root) :
    ((∀ criteria ∈ leaves, criteria.hasShape) →
      ∃ query, context.query (.group .or (leaves.map .leaf)) = .ok query) ∧
    ∀ query, context.query (.group .or (leaves.map .leaf)) = .ok query →
      ∃ queries, (∀ scoring, SearchContext.queries ⟨context.schema, context.settings, scoring⟩
          (leaves.map .leaf) = .ok queries) ∧
        ∀ document, query.holdsIn document = queries.any (·.holdsIn document) := by
  rw [query_eq_combine hplain hroot]
  have hne : leaves ≠ [] := by
    rintro rfl
    simp [Schema.groupingRoot?] at hroot
  refine ⟨exists_combine context root .or, fun query h => ?_⟩
  obtain ⟨positive, excluded, hpositive, _⟩ := combine_eq_ok_iff.mp h
  rw [List.filter_eq_self.mpr (by simpa using hasserted)] at hpositive
  obtain ⟨queries, hqueries, hvalues⟩ := exists_queries_holdsIn hplain hpositive
  refine ⟨queries, hqueries, fun document => Bool.eq_iff_iff.mpr ?_⟩
  have hseparate : queries.any (·.holdsIn document) = true ↔ ∃ criteria ∈ leaves,
      context.testHolds (context.schema.nestedAncestors criteria.path) criteria document = true := by
    have hvalue : queries.any (·.holdsIn document) = (queries.map (·.holdsIn document)).any id := by
      rw [List.any_map, Function.id_comp]
    rw [hvalue, hvalues, List.any_map, List.any_eq_true]
    refine exists_congr fun criteria => and_congr_right fun hcriteria => ?_
    simp [hasserted criteria hcriteria]
  rw [holdsIn_combine_or hasserted hne h, hseparate]
  constructor
  · rintro ⟨element, helement, criteria, hcriteria, hpasses⟩
    exact ⟨criteria, hcriteria,
      (testHolds_of_groupingRoot? hroot hcriteria).mpr ⟨element, helement, hpasses⟩⟩
  · rintro ⟨criteria, hcriteria, hholds⟩
    obtain ⟨element, helement, hpasses⟩ := (testHolds_of_groupingRoot? hroot hcriteria).mp hholds
    exact ⟨element, helement, criteria, hcriteria, hpasses⟩

/-- Alternatives inside and below an array that lies in another one. -/
theorem holdsIn_disjunction_iff_shelves :
    let context : SearchContext := ⟨⟨[("shelves", .nested), ("shelves.editions", .nested),
      ("shelves.editions.contributors", .nested), ("shelves.editions.isbn", .ofStrings),
      ("shelves.editions.contributors.name", .ofStrings)]⟩, {}, true⟩
    let printed : Criteria := ⟨"shelves.editions.isbn", .equal, .value (.text "978"), true⟩
    let named : Criteria :=
      ⟨"shelves.editions.contributors.name", .like, .value (.text "Ada"), false⟩
    let leaves : List Criteria := [printed, named]
    let isbn : SearchQuery := .term "shelves.editions.isbn.keyword" (.text "978")
    let name : SearchQuery := .nested "shelves.editions.contributors"
      (.fullText "shelves.editions.contributors.name" (.text "Ada"))
    let below (query : SearchQuery) : SearchQuery :=
      .nested "shelves" (.nested "shelves.editions" query)
    (∀ criteria ∈ leaves, criteria.isPlain = true) ∧
      (∀ criteria ∈ leaves, criteria.relationship.isNegated = false) ∧
      context.schema.groupingRoot? .nested (leaves.map Criteria.path) = some "shelves.editions" ∧
      context.query (.group .or (leaves.map .leaf)) = .ok (below (.bool [] [] [isbn, name] [])) ∧
      ∀ document, (below (.bool [] [] [isbn, name] [])).holdsIn document =
        ((below isbn).holdsIn document || (below name).holdsIn document) := by
  intro context printed named leaves isbn name below
  have hplain : ∀ criteria ∈ leaves, criteria.isPlain = true := by decide +kernel
  have hasserted : ∀ criteria ∈ leaves, criteria.relationship.isNegated = false := by decide +kernel
  have hroot : context.schema.groupingRoot? .nested (leaves.map Criteria.path) =
    some "shelves.editions" := by decide +kernel
  have hquery : context.query (.group .or (leaves.map .leaf)) =
    .ok (below (.bool [] [] [isbn, name] [])) := by cbv
  obtain ⟨queries, hqueries, hholds⟩ :=
    (holdsIn_disjunction_iff hplain hasserted hroot).2 _ hquery
  have hseparate : SearchContext.queries context (leaves.map .leaf) =
    .ok [below isbn, below name] := by cbv
  obtain rfl : queries = [below isbn, below name] :=
    Except.ok.inj ((hqueries true).symm.trans hseparate)
  refine ⟨hplain, hasserted, hroot, hquery, fun document => ?_⟩
  rw [hholds document]
  simp

end SearchContext

end FilterRules
