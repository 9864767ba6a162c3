import FilterRules.Proofs.Grouping.Blocks
import FilterRules.Proofs.Projection
import FilterRules.Proofs.Search.Acceptance
import FilterRules.Proofs.Search.Combination
import FilterRules.Proofs.Search.Meaning

/-!
# The nested fields around a leaf

A leaf query is meant for the elements of the nested fields above its attribute: in any other scope it
silently holds of nothing. In the query of a rule list with plain attributes every leaf is the leaf of a
comparison of the list, and it stands in exactly the nested fields above the attribute of that
comparison, outermost first. This holds of a comparison on its own, of one that is combined with its
siblings below a nested field, and of the copies that an exclusion makes of the siblings. Of other
attributes a comparison on its own has its leaf on the path of the field, and one that is combined with
its siblings on the attribute as it stands.
-/

namespace FilterRules

/-- A leaf where it stands in a query. -/
structure Occurrence where
  /-- The paths of the nested fields around the leaf, outermost first. -/
  scope : List String
  /-- The leaf. -/
  leaf : SearchQuery

/-- A leaf inside further nested fields. -/
def Occurrence.inside (fields : List String) (occurrence : Occurrence) : Occurrence :=
  ⟨fields ++ occurrence.scope, occurrence.leaf⟩

namespace SearchQuery

mutual

/-- The leaves of a query where they stand in it. The query for every document is none, since it
compares no field. -/
def occurrences : SearchQuery → List Occurrence
  | .matchAll => []
  | .nested path query => query.occurrences.map (.inside [path])
  | .bool must filter should mustNot =>
    occurrencesOf must ++ occurrencesOf filter ++ occurrencesOf should ++ occurrencesOf mustNot
  | leaf => [⟨[], leaf⟩]

/-- The leaves of some queries. -/
def occurrencesOf : List SearchQuery → List Occurrence
  | [] => []
  | query :: queries => query.occurrences ++ occurrencesOf queries

end

/-- The leaves of some queries are those of each of them. -/
theorem occurrencesOf_eq_flatMap (queries : List SearchQuery) :
    occurrencesOf queries = queries.flatMap occurrences := by
  induction queries with
  | nil => rfl
  | cons query queries ih => rw [occurrencesOf, ih, List.flatMap_cons]

/-- The leaves of a query inside nested fields. -/
theorem occurrences_foldr_nested (fields : List String) (query : SearchQuery) :
    (fields.foldr .nested query).occurrences = query.occurrences.map (.inside fields) := by
  induction fields with
  | nil => exact (List.map_id query.occurrences).symm
  | cons path fields ih =>
    rw [List.foldr_cons, occurrences, ih, List.map_map]
    rfl

/-- The leaves of queries that must not hold. -/
theorem occurrences_noneOf (queries : List SearchQuery) :
    (noneOf queries).occurrences = queries.flatMap occurrences := by
  simp [noneOf, occurrences, occurrencesOf_eq_flatMap]

end SearchQuery

/-- The path of the field that a criteria compares, without blanks and without a selection. -/
def Criteria.fieldPath (criteria : Criteria) : String :=
  (AttributePath.parse? criteria.path).elim criteria.path AttributePath.schemaPath

/-- A plain attribute is the path of its field. -/
theorem Criteria.fieldPath_of_isPlain {criteria : Criteria} (h : criteria.isPlain = true) :
    criteria.fieldPath = criteria.path := by
  obtain ⟨segments, hpath, htext⟩ := exists_path_of_isPlain h
  rw [fieldPath, hpath]
  exact htext

/-- The path that the leaf of a criteria in a block is on: that of its field when the criteria stands
alone, and the attribute as it stands when several are joined. -/
def Criteria.placeIn (criteria : Criteria) (block : List Criteria) : String :=
  if block.length < 2 then criteria.fieldPath else criteria.path

/-- The places of comparisons are decided by their attributes. -/
theorem Criteria.placeIn_map {change : Criteria → Criteria}
    (hpath : ∀ criteria, (change criteria).path = criteria.path) (criteria : Criteria)
    (block : List Criteria) :
    (change criteria).placeIn (block.map change) = criteria.placeIn block := by
  simp only [placeIn, fieldPath, hpath, List.length_map]

namespace SearchContext

open SearchQuery (occurrences occurrences_noneOf occurrences_foldr_nested)

variable {context : SearchContext} {criteria : Criteria} {leaves : List Criteria}
  {connective : Connective} {root : String} {query : SearchQuery} {occurrence : Occurrence}
  {fields : List String}

/-- A leaf stands in no nested field. -/
theorem occurrences_leaf {path : String} {leaf : SearchQuery}
    (h : context.leaf criteria path = .ok leaf) : leaf.occurrences = [⟨[], leaf⟩] := by
  have hleaf := isLeaf_leaf h
  cases leaf with
  | matchAll | nested | bool => cases hleaf
  | _ => rfl

/-- The leaves of joined queries are those of each of them. -/
theorem occurrences_compound (connective : Connective) (queries : List SearchQuery) :
    (context.compound connective queries).occurrences = queries.flatMap occurrences := by
  cases connective with
  | and =>
    rw [compound]
    split <;> simp [occurrences, SearchQuery.occurrencesOf_eq_flatMap]
  | or => simp [compound, occurrences, SearchQuery.occurrencesOf_eq_flatMap]

/-- The leaves of joined parts are those of each of them. -/
theorem occurrences_joinParts (connective : Connective) (parts : List SearchQuery) :
    (context.joinParts connective parts).occurrences = parts.flatMap occurrences := by
  rw [joinParts.eq_def]
  split
  · simp
  · exact occurrences_compound connective _

/-- Whether an occurrence is that of the leaf of a criteria inside the given nested fields. -/
def HasLeaf (context : SearchContext) (criteria : Criteria) (fields : List String)
    (occurrence : Occurrence) : Prop :=
  context.leaf criteria criteria.path = .ok occurrence.leaf ∧ occurrence.scope = fields

/-- The leaf of a criteria inside more nested fields. -/
theorem hasLeaf_append_iff {outer : List String} :
    context.HasLeaf criteria (outer ++ fields) occurrence ↔
      ∃ inner, context.HasLeaf criteria fields inner ∧ occurrence = inner.inside outer := by
  constructor
  · rintro ⟨hleaf, hscope⟩
    refine ⟨⟨fields, occurrence.leaf⟩, ⟨hleaf, rfl⟩, ?_⟩
    rw [Occurrence.inside, ← hscope]
  · rintro ⟨inner, ⟨hleaf, rfl⟩, rfl⟩
    exact ⟨hleaf, rfl⟩

/-- A leaf inside some nested fields is the only leaf of the query that the two make up. -/
theorem mem_occurrences_wrapped {leaf : SearchQuery} (fields : List String)
    (h : context.leaf criteria criteria.path = .ok leaf) :
    occurrence ∈ (fields.foldr SearchQuery.nested leaf).occurrences ↔
      context.HasLeaf criteria fields occurrence := by
  obtain ⟨scope, found⟩ := occurrence
  rw [occurrences_foldr_nested, occurrences_leaf h]
  simp [HasLeaf, h, Occurrence.inside, and_comm, eq_comm]

/-- The test of a key. -/
def keyTerm (context : SearchContext) (keyPath : String) (literal : Literal) : SearchQuery :=
  .term (context.fieldName keyPath (context.keyIsExact keyPath)) literal

/-- Whether an occurrence is one that a criteria makes: that of its leaf, or that of the test of the key
that it selects an element by, inside the nested fields above its field. -/
def Makes (context : SearchContext) (criteria : Criteria) (occurrence : Occurrence) : Prop :=
  ∃ path, AttributePath.parse? criteria.path = some path ∧
    occurrence.scope = context.schema.nestedAncestors path.schemaPath ∧
    (context.leaf criteria path.schemaPath = .ok occurrence.leaf ∨
      ∃ keyPath literal, path.keyPath? = some keyPath ∧
        path.emittedFilter context.schema = .ok (some literal) ∧
        occurrence.leaf = context.keyTerm keyPath literal)

/-- Whether an occurrence is one that a criteria makes with its leaf on the field at a place. -/
def MakesAt (context : SearchContext) (criteria : Criteria) (place : String)
    (occurrence : Occurrence) : Prop :=
  occurrence.scope = context.schema.nestedAncestors place ∧
    (context.leaf criteria place = .ok occurrence.leaf ∨
      ∃ path keyPath literal, AttributePath.parse? criteria.path = some path ∧
        path.keyPath? = some keyPath ∧ path.emittedFilter context.schema = .ok (some literal) ∧
        occurrence.leaf = context.keyTerm keyPath literal)

/-- A criteria alone makes its occurrences at the path of its field. -/
theorem makes_iff {path : AttributePath} (hpath : AttributePath.parse? criteria.path = some path) :
    context.Makes criteria occurrence ↔ context.MakesAt criteria criteria.fieldPath occurrence := by
  simp [Makes, MakesAt, Criteria.fieldPath, hpath]

/-- A criteria that selects nothing makes its leaf alone. -/
theorem makesAt_iff_of_selects {place : String} (h : criteria.selects = false) :
    context.MakesAt criteria place occurrence ↔
      occurrence.scope = context.schema.nestedAncestors place ∧
        context.leaf criteria place = .ok occurrence.leaf := by
  refine and_congr_right fun _ => or_iff_left ?_
  rintro ⟨path, keyPath, literal, hpath, hkey, _⟩
  cases path with
  | plain segments => simp [AttributePath.keyPath?] at hkey
  | filtered array key value element => simp [Criteria.selects, hpath, AttributePath.isFiltered] at h

/-- A plain comparison makes its leaf alone. -/
theorem makes_iff_of_isPlain (h : criteria.isPlain = true) :
    context.Makes criteria occurrence ↔
      context.HasLeaf criteria (context.schema.nestedAncestors criteria.path) occurrence := by
  obtain ⟨segments, hpath, htext⟩ := Criteria.exists_path_of_isPlain h
  have hschema : (AttributePath.plain segments).schemaPath = criteria.path := htext
  simp [Makes, HasLeaf, hpath, hschema, AttributePath.keyPath?, and_comm]

/-- What a path selects by is the test of its key with the literal of the selection. -/
theorem elementFilter_eq_some_iff {path : AttributePath} {selection : Option SearchQuery}
    (h : context.elementFilter path = .ok selection) (filter : SearchQuery) :
    selection = some filter ↔ ∃ keyPath literal, path.keyPath? = some keyPath ∧
      path.emittedFilter context.schema = .ok (some literal) ∧
      filter = context.keyTerm keyPath literal := by
  obtain ⟨found, hfound, h⟩ := Outcome.bind_eq_ok_iff.mp h
  simp only [hfound, Except.ok.injEq]
  cases hkey : path.keyPath? with
  | none =>
    obtain rfl : none = selection := by simpa [hkey] using h
    simp
  | some keyPath =>
    cases found with
    | none =>
      obtain rfl : none = selection := by simpa [hkey] using h
      simp
    | some literal =>
      obtain rfl : some (context.keyTerm keyPath literal) = selection := by
        simpa [hkey, keyTerm] using h
      simp [eq_comm]

/-- The query of a criteria on its own has its leaf, and in front of that the test of the key that it
selects an element by, both in the nested fields above the field. -/
theorem occurrences_criteria (h : context.criteria criteria = .ok query) :
    ∃ path leaf selection, AttributePath.parse? criteria.path = some path ∧
      context.leaf criteria path.schemaPath = .ok leaf ∧
      context.elementFilter path = .ok selection ∧
      query.occurrences = (selection.toList ++ [leaf]).map fun found =>
        ⟨context.schema.nestedAncestors path.schemaPath, found⟩ := by
  obtain ⟨path, hpath, h⟩ := Outcome.bind_eq_ok_iff.mp h
  obtain ⟨leaf, hleaf, h⟩ := Outcome.bind_eq_ok_iff.mp h
  obtain ⟨selection, hselection, h⟩ := Outcome.bind_eq_ok_iff.mp h
  refine ⟨path, leaf, selection, AttributePath.parseAt_eq_ok_iff.mp hpath, hleaf, hselection, ?_⟩
  cases selection with
  | none =>
    obtain rfl := Except.ok.inj h
    cases criteria.relationship.isNegated <;>
      simp [occurrences_noneOf, wrapNested, occurrences_foldr_nested, occurrences_leaf hleaf,
        Occurrence.inside]
  | some filter =>
    obtain ⟨keyPath, literal, _, _, rfl⟩ := (elementFilter_eq_some_iff hselection filter).mp rfl
    obtain rfl := Except.ok.inj h
    cases criteria.relationship.isNegated <;>
      simp [wrapNested, occurrences_foldr_nested, SearchQuery.filtering, occurrences,
        SearchQuery.occurrencesOf, occurrences_leaf hleaf, keyTerm, Occurrence.inside]

/-- The query of a criteria on its own has the leaves that the criteria makes. -/
theorem mem_occurrences_criteria (h : context.criteria criteria = .ok query) :
    occurrence ∈ query.occurrences ↔ context.Makes criteria occurrence := by
  obtain ⟨path, leaf, selection, hpath, hleaf, hselection, hleaves⟩ := occurrences_criteria h
  obtain ⟨scope, found⟩ := occurrence
  have hown : context.leaf criteria path.schemaPath = .ok found ↔ found = leaf := by
    rw [hleaf, Except.ok.injEq, eq_comm]
  simp only [Makes, hpath, Option.some.injEq, exists_eq_left', hown,
    ← elementFilter_eq_some_iff hselection found]
  rw [hleaves, List.mem_map]
  constructor
  · rintro ⟨inner, hinner, hsame⟩
    obtain ⟨rfl, rfl⟩ := Occurrence.mk.inj hsame
    refine ⟨rfl, ?_⟩
    simpa [or_comm] using hinner
  · rintro ⟨rfl, hmade⟩
    refine ⟨found, ?_, rfl⟩
    simpa [or_comm] using hmade

/-- The inner leaves of comparisons stand in the nested fields between `root` and their attributes. -/
theorem mem_occurrences_innerLeaves {queries : List SearchQuery}
    (h : context.innerLeaves root leaves = .ok queries) :
    occurrence ∈ queries.flatMap occurrences ↔ ∃ criteria ∈ leaves,
      context.HasLeaf criteria (context.schema.nestedBetween root criteria.path) occurrence := by
  induction leaves generalizing queries with
  | nil =>
    obtain rfl : [] = queries := Except.ok.inj h
    simp
  | cons criteria rest ih =>
    obtain ⟨leaf, others, hleaf, hothers, rfl⟩ := innerLeaves_cons h
    rw [List.flatMap_cons, List.mem_append, mem_occurrences_wrapped _ hleaf, ih hothers]
    simp

/-- The leaves of the parts are those of the comparisons that are not negated and of those that are,
all of them inside `root`. -/
theorem mem_occurrences_parts {positive excluded : List SearchQuery} :
    occurrence ∈ (context.parts root connective positive excluded).flatMap occurrences ↔
      ∃ inner ∈ (positive ++ excluded).flatMap occurrences, occurrence = inner.inside [root] := by
  have hrequired : (if positive.isEmpty then []
      else [.nested root (context.compound connective positive)]).flatMap occurrences =
        (positive.flatMap occurrences).map (.inside [root]) := by
    cases positive with
    | nil => rfl
    | cons first rest => simp [occurrences, occurrences_compound]
  -- An exclusion under a conjunction copies the leaves that are required anyway.
  have hexclusion (query : SearchQuery) :
      ∃ copies, copies ⊆ positive.flatMap occurrences ∧
        (context.exclusion root connective positive query).occurrences =
          (copies ++ query.occurrences).map (.inside [root]) := by
    cases connective with
    | and =>
      refine ⟨_, List.Subset.refl _, ?_⟩
      simp [exclusion, occurrences_noneOf, occurrences, occurrences_compound]
    | or => exact ⟨[], List.nil_subset _, by simp [exclusion, occurrences_noneOf, occurrences]⟩
  rw [parts, List.flatMap_append, hrequired, List.flatMap_append, List.flatMap_map]
  constructor
  · intro h
    rcases List.mem_append.mp h with hmem | hmem
    · obtain ⟨inner, hinner, rfl⟩ := List.mem_map.mp hmem
      exact ⟨inner, List.mem_append_left _ hinner, rfl⟩
    · obtain ⟨query, hquery, hmem⟩ := List.mem_flatMap.mp hmem
      obtain ⟨copies, hcopies, hleaves⟩ := hexclusion query
      rw [hleaves] at hmem
      obtain ⟨inner, hinner, rfl⟩ := List.mem_map.mp hmem
      refine ⟨inner, ?_, rfl⟩
      rcases List.mem_append.mp hinner with hcopy | hown
      · exact List.mem_append_left _ (hcopies hcopy)
      · exact List.mem_append_right _ (List.mem_flatMap_of_mem hquery hown)
  · rintro ⟨inner, hinner, rfl⟩
    rcases List.mem_append.mp hinner with hmem | hmem
    · exact List.mem_append_left _ (List.mem_map_of_mem hmem)
    · obtain ⟨query, hquery, hmem⟩ := List.mem_flatMap.mp hmem
      obtain ⟨copies, _, hleaves⟩ := hexclusion query
      refine List.mem_append_right _ (List.mem_flatMap_of_mem hquery ?_)
      rw [hleaves]
      exact List.mem_map_of_mem (List.mem_append_right _ hmem)

/-- The leaves of the query for comparisons below a nested field are theirs, in the nested fields above
that field, the field itself, and those between it and their attributes. -/
theorem mem_occurrences_combine (h : context.combine root connective leaves = .ok query) :
    occurrence ∈ query.occurrences ↔ ∃ criteria ∈ leaves, context.HasLeaf criteria
      (context.schema.nestedAncestors root ++
        root :: context.schema.nestedBetween root criteria.path) occurrence := by
  obtain ⟨positive, excluded, hpositive, hexcluded, rfl⟩ := combine_eq_ok_iff.mp h
  have hinner (inner : Occurrence) : inner ∈ (positive ++ excluded).flatMap occurrences ↔
      ∃ criteria ∈ leaves,
        context.HasLeaf criteria (context.schema.nestedBetween root criteria.path) inner := by
    rw [List.flatMap_append, List.mem_append, mem_occurrences_innerLeaves hpositive,
      mem_occurrences_innerLeaves hexcluded]
    simp only [List.mem_filter]
    constructor
    · rintro (⟨criteria, hmem, hleaf⟩ | ⟨criteria, hmem, hleaf⟩) <;>
        exact ⟨criteria, hmem.1, hleaf⟩
    · rintro ⟨criteria, hmem, hleaf⟩
      cases hnegated : criteria.relationship.isNegated with
      | false => exact Or.inl ⟨criteria, ⟨hmem, by simp [hnegated]⟩, hleaf⟩
      | true => exact Or.inr ⟨criteria, ⟨hmem, hnegated⟩, hleaf⟩
  rw [wrapNested, occurrences_foldr_nested, occurrences_joinParts, List.mem_map]
  constructor
  · rintro ⟨part, hpart, rfl⟩
    obtain ⟨inner, hmem, rfl⟩ := mem_occurrences_parts.mp hpart
    obtain ⟨criteria, hcriteria, hleaf⟩ := (hinner inner).mp hmem
    refine ⟨criteria, hcriteria, hasLeaf_append_iff.mpr ⟨_, ?_, rfl⟩⟩
    exact hasLeaf_append_iff.mpr ⟨inner, hleaf, rfl⟩
  · rintro ⟨criteria, hcriteria, hleaf⟩
    obtain ⟨part, hpart, rfl⟩ := hasLeaf_append_iff.mp hleaf
    have hinside : context.HasLeaf criteria
        ([root] ++ context.schema.nestedBetween root criteria.path) part := hpart
    obtain ⟨inner, hmem, rfl⟩ := hasLeaf_append_iff.mp hinside
    exact ⟨_, mem_occurrences_parts.mpr ⟨inner, (hinner inner).mpr ⟨criteria, hcriteria, hmem⟩, rfl⟩,
      rfl⟩

/-- The comparisons of a group that is joined make the leaves of its query, each on the attribute as it
stands. -/
theorem mem_occurrences_joined {block : List Criteria}
    (hselects : ∀ criteria ∈ block, criteria.selects = false)
    (hroot : context.schema.groupingRoot? .nested (block.map Criteria.path) = some root)
    (h : context.combine root connective block = .ok query) :
    occurrence ∈ query.occurrences ↔
      ∃ criteria ∈ block, context.MakesAt criteria (criteria.placeIn block) occurrence := by
  have hmany : 2 ≤ block.length := by
    simpa using (Schema.groupingRoot?_eq_some_iff.mp hroot).1
  rw [mem_occurrences_combine h]
  refine exists_congr fun criteria => and_congr_right fun hcriteria => ?_
  rw [Criteria.placeIn, if_neg (Nat.not_lt.mpr hmany),
    makesAt_iff_of_selects (hselects criteria hcriteria), HasLeaf,
    Schema.nestedAncestors_of_groupingRoot? hroot (List.mem_map_of_mem hcriteria), and_comm]

mutual

/-- The leaves of the query of a tree are those that the comparisons in its blocks make. -/
theorem mem_occurrences_blocks : (tree : Tree) → {query : SearchQuery} →
    context.query tree = .ok query → {occurrence : Occurrence} →
    (occurrence ∈ query.occurrences ↔ ∃ block ∈ tree.blocks context.schema.joins,
      ∃ criteria ∈ block, context.MakesAt criteria (criteria.placeIn block) occurrence)
  | .leaf criteria, query, h, occurrence => by
    rw [SearchContext.query] at h
    obtain ⟨path, _, _, hpath, _⟩ := occurrences_criteria h
    rw [mem_occurrences_criteria h, makes_iff hpath]
    simp [Tree.blocks, Criteria.placeIn]
  | .group connective children, query, h, occurrence => by
    rw [Tree.blocks]
    rcases query_group_cases h with ⟨rfl, rfl⟩ | ⟨leaves, root, hleaves, hselects, hroot, hcombined⟩ |
      ⟨hapart, queries, hqueries, rfl⟩
    · simp [Tree.blocksOf, Tree.leavesOf, occurrences]
    · have hjoins := Schema.joins_eq_true_iff.mpr ⟨leaves, root, hleaves, hselects, hroot⟩
      rw [if_pos hjoins, Tree.leavesOf_eq_of_criteria? hleaves,
        mem_occurrences_joined hselects hroot hcombined]
      simp
    · rw [hapart, if_neg Bool.false_ne_true, occurrences_compound]
      exact mem_occurrences_blocksOf children hqueries

/-- The leaves of the queries of trees are those that the comparisons in their blocks make. -/
theorem mem_occurrences_blocksOf : (trees : List Tree) → {queries : List SearchQuery} →
    context.queries trees = .ok queries → {occurrence : Occurrence} →
    (occurrence ∈ queries.flatMap occurrences ↔ ∃ block ∈ Tree.blocksOf context.schema.joins trees,
      ∃ criteria ∈ block, context.MakesAt criteria (criteria.placeIn block) occurrence)
  | [], queries, h, _ => by
    obtain rfl : [] = queries := Except.ok.inj h
    simp [Tree.blocksOf]
  | tree :: trees, queries, h, occurrence => by
    obtain ⟨query, others, hquery, hothers, rfl⟩ := queries_cons h
    rw [List.flatMap_cons, List.mem_append, mem_occurrences_blocks tree hquery,
      mem_occurrences_blocksOf trees hothers, Tree.blocksOf]
    simp only [List.mem_append, or_and_right, exists_or]

end

/-- The leaf of a criteria is on the path of its field, or on an attribute that selects nothing. -/
theorem placeIn_cases {schema : Schema} {tree : Tree} {block : List Criteria}
    (hblock : block ∈ tree.blocks schema.joins) (hcriteria : criteria ∈ block) :
    criteria.placeIn block = criteria.fieldPath ∨
      criteria.selects = false ∧ criteria.placeIn block = criteria.path := by
  rw [Criteria.placeIn]
  split
  case isTrue => exact Or.inl rfl
  case isFalse hmany =>
    rcases Tree.of_mem_blocks tree hblock with ⟨lone, rfl⟩ | ⟨children, hjoins, rfl⟩
    · simp at hmany
    · obtain ⟨leaves, _, hleaves, hselects, _⟩ := Schema.joins_eq_true_iff.mp hjoins
      rw [Tree.leavesOf_eq_of_criteria? hleaves] at hcriteria
      exact Or.inr ⟨hselects criteria hcriteria, rfl⟩

/-- A criteria makes the same wherever it stands, when its attribute selects an element or is plain. -/
theorem makesAt_placeIn_iff {tree : Tree} {block : List Criteria}
    (hattribute : criteria.selects = true ∨ criteria.isPlain = true)
    (hblock : block ∈ tree.blocks context.schema.joins) (hcriteria : criteria ∈ block) :
    context.MakesAt criteria (criteria.placeIn block) occurrence ↔
      context.Makes criteria occurrence := by
  obtain ⟨path, hpath⟩ : ∃ path, AttributePath.parse? criteria.path = some path := by
    rcases hattribute with hselects | hplain
    · obtain ⟨path, hpath, _⟩ := (Option.any_eq_true _ _).mp hselects
      exact ⟨path, hpath⟩
    · obtain ⟨segments, hpath, _⟩ := Criteria.exists_path_of_isPlain hplain
      exact ⟨_, hpath⟩
  have hplace : criteria.placeIn block = criteria.fieldPath := by
    rcases placeIn_cases hblock hcriteria with hfield | ⟨hselects, hplace⟩
    · exact hfield
    · have hplain := hattribute.resolve_left (by simp [hselects])
      rw [hplace, Criteria.fieldPath_of_isPlain hplain]
  rw [hplace, makes_iff hpath]

/-- The leaves of the query of a tree are those that its comparisons make, where each attribute without
a selection is plain. -/
theorem mem_occurrences_tree (tree : Tree)
    (hattributes : ∀ criteria ∈ tree.leaves, criteria.selects = true ∨ criteria.isPlain = true)
    (h : context.query tree = .ok query) :
    occurrence ∈ query.occurrences ↔ ∃ criteria ∈ tree.leaves, context.Makes criteria occurrence := by
  have hmakes {block : List Criteria} (hblock : block ∈ tree.blocks context.schema.joins) :
      (∃ criteria ∈ block, context.MakesAt criteria (criteria.placeIn block) occurrence) ↔
        ∃ criteria ∈ block, context.Makes criteria occurrence := by
    refine exists_congr fun criteria => and_congr_right fun hcriteria => ?_
    have hleaf := (Tree.mem_leaves_iff _).mpr ⟨block, hblock, hcriteria⟩
    exact makesAt_placeIn_iff (hattributes criteria hleaf) hblock hcriteria
  rw [mem_occurrences_blocks tree h]
  simp only [Tree.mem_leaves_iff context.schema.joins]
  constructor
  · rintro ⟨block, hblock, hmade⟩
    obtain ⟨criteria, hcriteria, hmade⟩ := (hmakes hblock).mp hmade
    exact ⟨criteria, ⟨block, hblock, hcriteria⟩, hmade⟩
  · rintro ⟨criteria, ⟨block, hblock, hcriteria⟩, hmade⟩
    exact ⟨block, hblock, (hmakes hblock).mpr ⟨criteria, hcriteria, hmade⟩⟩

/-- The leaves of the query of a tree with plain attributes are those of its comparisons, each in the
nested fields above its attribute. -/
theorem mem_occurrences_query (tree : Tree)
    (hplain : ∀ criteria ∈ tree.leaves, criteria.isPlain = true)
    (h : context.query tree = .ok query) :
    occurrence ∈ query.occurrences ↔ ∃ criteria ∈ tree.leaves,
      context.HasLeaf criteria (context.schema.nestedAncestors criteria.path) occurrence := by
  rw [mem_occurrences_tree tree (fun criteria hcriteria => Or.inr (hplain criteria hcriteria)) h]
  exact exists_congr fun criteria => and_congr_right fun hcriteria =>
    makes_iff_of_isPlain (hplain criteria hcriteria)

end SearchContext

/-- The leaf of a criteria in a search: that of its test, whether or not it is negated, with converted
literals, on the field that the schema knows. -/
def Compiler.leaf? (compiler : Compiler) (criteria : Criteria) : Option SearchQuery := do
  let path ← AttributePath.parse? criteria.path
  let converted ← (criteria.convert 0 compiler.schema compiler.settings true).toOption
  let context : SearchContext := ⟨compiler.schema, compiler.settings, false⟩
  (context.leaf converted.positive path.schemaPath).toOption

namespace Compiler

variable {compiler : Compiler} {rules : List Rule} {query : SearchQuery}

/-- The search query of a list, which is valid, is that of its tree with converted comparisons. -/
theorem exists_tree_map_of_searchQuery (h : compiler.searchQuery rules = .ok query) :
    validate rules compiler.schema = .ok () ∧ ∃ tree, Tree.ofRules rules = .ok tree ∧
      tree.leaves = Rule.criteriaOf rules ∧
      SearchContext.query ⟨compiler.schema, compiler.settings, requiresScoring rules⟩
        (tree.map fun criteria => criteria.converted compiler.schema compiler.settings true) =
          .ok query := by
  obtain ⟨⟨⟩, hvalid, _⟩ := Outcome.bind_eq_ok_iff.mp h
  rw [searchQuery_of_validate hvalid, Tree.ofRules_convertedRules] at h
  obtain ⟨converted, hconverted, hquery⟩ := Outcome.bind_eq_ok_iff.mp h
  obtain ⟨tree, htree, rfl⟩ := Outcome.map_eq_ok_iff.mp hconverted
  refine ⟨hvalid, tree, htree, Tree.leaves_of_ofRules (checkOrder_of_validate hvalid) htree, ?_⟩
  rwa [convertedRules, requiresScoring_map _ fun criteria =>
    criteria.relationship_converted compiler.schema compiler.settings true] at hquery

/-- The search query of a list, which is valid, is that of a tree with the converted comparisons of the
list in order. -/
theorem exists_tree_of_searchQuery (h : compiler.searchQuery rules = .ok query) :
    validate rules compiler.schema = .ok () ∧ ∃ tree,
      SearchContext.query ⟨compiler.schema, compiler.settings, requiresScoring rules⟩ tree =
        .ok query ∧
      tree.leaves = (Rule.criteriaOf rules).map fun criteria =>
        criteria.converted compiler.schema compiler.settings true := by
  obtain ⟨hvalid, tree, _, hleaves, hquery⟩ := exists_tree_map_of_searchQuery h
  exact ⟨hvalid, _, hquery, by rw [Tree.leaves_map, hleaves]⟩

/-- The leaf of a plain comparison of a valid list is that of its conversion. -/
theorem leaf?_eq_some_iff {scoring : Bool} {criteria : Criteria} {leaf : SearchQuery}
    (hvalid : validate rules compiler.schema = .ok ()) (hcriteria : Rule.criteria criteria ∈ rules)
    (hplain : criteria.isPlain = true) :
    compiler.leaf? criteria = some leaf ↔
      SearchContext.leaf ⟨compiler.schema, compiler.settings, scoring⟩
        (criteria.converted compiler.schema compiler.settings true) criteria.path = .ok leaf := by
  obtain ⟨segments, hpath, htext⟩ := Criteria.exists_path_of_isPlain hplain
  have hschema : (AttributePath.plain segments).schemaPath = criteria.path := htext
  have hconvert : (criteria.convert 0 compiler.schema compiler.settings true).toOption =
      some (criteria.converted compiler.schema compiler.settings true) := by
    rw [convert_of_validate compiler.settings true hvalid criteria hcriteria]
    rfl
  simp only [leaf?, hpath, hconvert, Option.bind_eq_bind, Option.bind_some, hschema,
    SearchContext.leaf_positive]
  -- Ranking does not show in a leaf.
  change (SearchContext.leaf ⟨compiler.schema, compiler.settings, scoring⟩ _ _).toOption = _ ↔ _
  cases SearchContext.leaf ⟨compiler.schema, compiler.settings, scoring⟩
    (criteria.converted compiler.schema compiler.settings true) criteria.path <;>
      simp [Except.toOption]

/-- In the query of a list with plain attributes the leaves are exactly those of its comparisons, and
each stands in exactly the nested fields above its attribute, outermost first. -/
theorem mem_occurrences_searchQuery
    (hplain : ∀ criteria, Rule.criteria criteria ∈ rules → criteria.isPlain = true)
    (h : compiler.searchQuery rules = .ok query) (occurrence : Occurrence) :
    occurrence ∈ query.occurrences ↔ ∃ criteria, Rule.criteria criteria ∈ rules ∧
      compiler.leaf? criteria = some occurrence.leaf ∧
      occurrence.scope = compiler.schema.nestedAncestors criteria.path := by
  obtain ⟨hvalid, tree, hquery, hconverted⟩ := exists_tree_of_searchQuery h
  have hpath (criteria : Criteria) := criteria.path_converted compiler.schema compiler.settings true
  have hleaves (criteria : Criteria) : criteria ∈ tree.leaves ↔ ∃ before,
      Rule.criteria before ∈ rules ∧
        before.converted compiler.schema compiler.settings true = criteria := by
    simp only [hconverted, List.mem_map, Rule.mem_criteriaOf]
  have htree : ∀ criteria ∈ tree.leaves, criteria.isPlain = true := by
    intro criteria hcriteria
    obtain ⟨before, hbefore, rfl⟩ := (hleaves criteria).mp hcriteria
    rw [Criteria.isPlain_converted]
    exact hplain before hbefore
  rw [SearchContext.mem_occurrences_query tree htree hquery]
  constructor
  · rintro ⟨criteria, hcriteria, hleaf, hscope⟩
    obtain ⟨before, hbefore, rfl⟩ := (hleaves criteria).mp hcriteria
    rw [hpath before] at hleaf hscope
    exact ⟨before, hbefore, (leaf?_eq_some_iff hvalid hbefore (hplain before hbefore)).mpr hleaf,
      hscope⟩
  · rintro ⟨before, hbefore, hleaf, hscope⟩
    refine ⟨_, (hleaves _).mpr ⟨before, hbefore, rfl⟩, ?_, ?_⟩
    · rw [hpath before]
      exact (leaf?_eq_some_iff hvalid hbefore (hplain before hbefore)).mp hleaf
    · rw [hpath before, hscope]

/-- A negated comparison two nested fields down, combined with one above it and one beside it. -/
theorem mem_occurrences_searchQuery_contributors :
    let compiler : Compiler := ⟨⟨[("editions", .nested), ("editions.contributors", .nested),
      ("editions.contributors.name", .ofStrings), ("editions.contributors.role", .ofStrings),
      ("editions.isbn", .ofStrings), ("type", .ofStrings)]⟩, {}⟩
    let typed : Criteria := ⟨"type", .equal, .value (.text "book"), false⟩
    let printed : Criteria := ⟨"editions.isbn", .equal, .value (.text "978"), false⟩
    let named : Criteria := ⟨"editions.contributors.name", .equal, .value (.text "Ada"), false⟩
    let cast : Criteria := ⟨"editions.contributors.role", .notEqual, .value (.text "editor"), false⟩
    let rules : List Rule := [.separator .opening, .criteria typed, .logical .and,
      .separator .opening, .criteria printed, .logical .and, .criteria named, .logical .and,
      .criteria cast, .separator .closing, .separator .closing]
    let below (leaf : SearchQuery) : SearchQuery := .nested "editions.contributors" leaf
    let required : List SearchQuery := [.term "editions.isbn.keyword" (.text "978"),
      below (.term "editions.contributors.name.keyword" (.text "Ada"))]
    let editor : SearchQuery := .term "editions.contributors.role.keyword" (.text "editor")
    let query : SearchQuery := .filtering [.term "type.keyword" (.text "book"), .filtering [
      .nested "editions" (.filtering required),
      .noneOf [.nested "editions" (.filtering (required ++ [below editor]))]]]
    (∀ criteria, Rule.criteria criteria ∈ rules → criteria.isPlain = true) ∧
      compiler.searchQuery rules = .ok query ∧
      ⟨["editions", "editions.contributors"], editor⟩ ∈ query.occurrences := by
  intro compiler typed printed named cast rules below required editor query
  have hplain : ∀ criteria, Rule.criteria criteria ∈ rules → criteria.isPlain = true := by
    have hfour : typed.isPlain = true ∧ printed.isPlain = true ∧ named.isPlain = true ∧
        cast.isPlain = true := by decide +kernel
    simpa [rules] using hfour
  have hquery : compiler.searchQuery rules = .ok query := by cbv
  refine ⟨hplain, hquery, ?_⟩
  refine (mem_occurrences_searchQuery hplain hquery _).mpr ⟨cast, by simp [rules], ?_, ?_⟩
  · cbv
  · decide +kernel

end Compiler

end FilterRules
