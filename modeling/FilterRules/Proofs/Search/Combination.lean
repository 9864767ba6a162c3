import FilterRules.Proofs.Rule.Mapping
import FilterRules.Proofs.Schema.Places
import FilterRules.Proofs.Spelling.Rules
import FilterRules.Search.Emission

/-!
# What the query of a group is

The query of a group is one of three: every document for an empty group, one query on the elements of a
nested field for comparisons that share it, and otherwise the queries of the items, joined. Comparisons
that share a nested field have one query as soon as each of them has a leaf.
-/

namespace FilterRules

/-- Whether the attribute is a path without a selection and without blanks around its segments. -/
def Criteria.isPlain (criteria : Criteria) : Bool :=
  match AttributePath.parse? criteria.path with
  | some (.plain segments) => Dotted.ofSegments segments == criteria.path
  | _ => false

/-- A plain attribute is its own path. -/
theorem Criteria.exists_path_of_isPlain {criteria : Criteria} (h : criteria.isPlain = true) :
    ∃ segments, AttributePath.parse? criteria.path = some (.plain segments) ∧
      Dotted.ofSegments segments = criteria.path := by
  rw [isPlain] at h
  split at h
  case h_1 segments hpath => exact ⟨segments, hpath, by simpa using h⟩
  case h_2 => simp at h

/-- A comparison is plain by its attribute alone. -/
theorem Criteria.isPlain_converted (criteria : Criteria) (schema : Schema) (settings : Settings)
    (forSearch : Bool) : (criteria.converted schema settings forSearch).isPlain = criteria.isPlain := by
  rw [isPlain, isPlain, path_converted]

/-- Trees that are comparisons are those side by side. -/
theorem Tree.eq_map_of_criteria? {trees : List Tree} {leaves : List Criteria}
    (h : Tree.criteria? trees = some leaves) : trees = leaves.map .leaf := by
  induction trees generalizing leaves with
  | nil =>
    obtain rfl := Option.some.inj h
    rfl
  | cons tree trees ih =>
    cases tree with
    | leaf criteria =>
      obtain ⟨others, hothers, rfl⟩ := Option.map_eq_some_iff.mp h
      rw [ih hothers, List.map_cons]
    | group connective children => simp [Tree.criteria?] at h

/-- Comparisons side by side are found again. -/
theorem Tree.criteria?_map_leaf (leaves : List Criteria) :
    Tree.criteria? (leaves.map .leaf) = some leaves := by
  induction leaves with
  | nil => rfl
  | cons criteria rest ih => simp [Tree.criteria?, ih]

/-- Trees that are comparisons are so with other comparisons. -/
theorem Tree.criteria?_mapAll (change : Criteria → Criteria) (trees : List Tree) :
    Tree.criteria? (Tree.mapAll change trees) = (Tree.criteria? trees).map (List.map change) := by
  induction trees with
  | nil => rfl
  | cons tree trees ih =>
    cases tree with
    | leaf criteria =>
      simp only [Tree.mapAll, Tree.map, Tree.criteria?, ih]
      cases Tree.criteria? trees <;> rfl
    | group connective children => rfl

/-- Whether a group is joined to one query: when its items are comparisons that select no element and
share a nested field. -/
def Schema.joins (schema : Schema) (children : List Tree) : Bool :=
  (Tree.criteria? children).any fun leaves => !leaves.any Criteria.selects &&
    (schema.groupingRoot? .nested (leaves.map Criteria.path)).isSome

/-- The comparisons of a group that is joined, and the nested field that they share. -/
theorem Schema.joins_eq_true_iff {schema : Schema} {children : List Tree} :
    schema.joins children = true ↔ ∃ leaves root, Tree.criteria? children = some leaves ∧
      (∀ criteria ∈ leaves, criteria.selects = false) ∧
      schema.groupingRoot? .nested (leaves.map Criteria.path) = some root := by
  simp only [joins, Option.any_eq_true, Bool.and_eq_true, Bool.not_eq_true', List.any_eq_false,
    Bool.not_eq_true, Option.isSome_iff_exists, exists_and_left]

/-- The same groups are joined with other comparisons on the same attributes. -/
theorem Schema.joins_mapAll {change : Criteria → Criteria}
    (hpath : ∀ criteria, (change criteria).path = criteria.path) (schema : Schema)
    (children : List Tree) : schema.joins (Tree.mapAll change children) = schema.joins children := by
  have hselects (criteria : Criteria) : (change criteria).selects = criteria.selects :=
    (Criteria.spelling_congr (hpath criteria)).1
  rw [joins, joins, Tree.criteria?_mapAll]
  cases Tree.criteria? children with
  | none => rfl
  | some leaves => simp [List.any_map, Function.comp_def, hselects, hpath]

namespace SearchContext

variable {context : SearchContext} {criteria : Criteria} {leaves : List Criteria}
  {connective : Connective} {root : String} {query : SearchQuery}

/-- A plain comparison on its own has its leaf inside the nested fields above its attribute, and
excludes that when it is negated. -/
theorem criteria_of_isPlain (h : criteria.isPlain = true) :
    context.criteria criteria = (context.leaf criteria criteria.path).map fun leaf =>
      let wrapped := context.wrapNested criteria.path leaf
      if criteria.relationship.isNegated then .noneOf [wrapped] else wrapped := by
  obtain ⟨segments, hpath, htext⟩ := Criteria.exists_path_of_isPlain h
  have hschema : (AttributePath.plain segments).schemaPath = criteria.path := htext
  have hfilter : context.elementFilter (.plain segments) = .ok none := rfl
  rw [SearchContext.criteria, AttributePath.parseAt_eq_ok_iff.mpr hpath, Outcome.ok_bind, hschema,
    hfilter]
  cases context.leaf criteria criteria.path <;> rfl

/-- Comparisons have paths when each of them has one. -/
theorem paths_eq_ok_iff {found : List AttributePath} : paths leaves = .ok found ↔
    List.Forall₂ (fun criteria path => AttributePath.parseAt criteria.path none = .ok path) leaves
      found :=
  Outcome.eq_ok_iff_forall₂ (fun criteria : Criteria => AttributePath.parseAt criteria.path none)
    paths rfl fun _ _ => rfl

/-- Comparisons have inner leaves when each of them has one. -/
theorem innerLeaves_eq_ok_iff {found : List SearchQuery} :
    context.innerLeaves root leaves = .ok found ↔
      List.Forall₂ (fun criteria leaf => context.innerLeaf root criteria = .ok leaf) leaves found :=
  Outcome.eq_ok_iff_forall₂ (context.innerLeaf root) (context.innerLeaves root) rfl fun _ _ => rfl

/-- Trees have queries when each of them has one. -/
theorem queries_eq_ok_iff {trees : List Tree} {found : List SearchQuery} :
    context.queries trees = .ok found ↔
      List.Forall₂ (fun tree query => context.query tree = .ok query) trees found :=
  Outcome.eq_ok_iff_forall₂ context.query context.queries (by rw [SearchContext.queries])
    fun _ _ => by rw [SearchContext.queries]

/-- The paths of plain comparisons select nothing. -/
theorem paths_of_isPlain (h : ∀ criteria ∈ leaves, criteria.isPlain = true) :
    ∃ found, paths leaves = .ok found ∧ found.any AttributePath.isFiltered = false := by
  induction leaves with
  | nil => exact ⟨[], rfl, rfl⟩
  | cons criteria rest ih =>
    obtain ⟨hfirst, hrest⟩ := List.forall_mem_cons.mp h
    obtain ⟨segments, hpath, _⟩ := Criteria.exists_path_of_isPlain hfirst
    obtain ⟨found, hfound, hplain⟩ := ih hrest
    refine ⟨.plain segments :: found, ?_, hplain⟩
    rw [paths, AttributePath.parseAt_eq_ok_iff.mpr hpath, hfound]
    rfl

/-- The paths of comparisons select elements where the comparisons do. -/
theorem paths_eq_ok {found : List AttributePath} (h : paths leaves = .ok found) :
    found.any AttributePath.isFiltered = leaves.any Criteria.selects := by
  induction leaves generalizing found with
  | nil =>
    obtain rfl := Except.ok.inj h
    rfl
  | cons criteria rest ih =>
    obtain ⟨path, hpath, h⟩ := Outcome.bind_eq_ok_iff.mp h
    obtain ⟨others, hothers, h⟩ := Outcome.bind_eq_ok_iff.mp h
    obtain rfl := Except.ok.inj h
    have hselects : criteria.selects = path.isFiltered := by
      rw [Criteria.selects, AttributePath.parseAt_eq_ok_iff.mp hpath, Option.any_some]
    rw [List.any_cons, List.any_cons, ih hothers, hselects]

/-- The inner leaves of comparisons, one after the other. -/
theorem innerLeaves_cons {rest : List Criteria} {found : List SearchQuery}
    (h : context.innerLeaves root (criteria :: rest) = .ok found) :
    ∃ leaf others, context.leaf criteria criteria.path = .ok leaf ∧
      context.innerLeaves root rest = .ok others ∧
      found = (context.schema.nestedBetween root criteria.path).foldr .nested leaf :: others := by
  rw [innerLeaves] at h
  obtain ⟨first, hfirst, h⟩ := Outcome.bind_eq_ok_iff.mp h
  obtain ⟨others, hothers, h⟩ := Outcome.bind_eq_ok_iff.mp h
  obtain ⟨leaf, hleaf, hinner⟩ := Outcome.bind_eq_ok_iff.mp hfirst
  obtain rfl := Except.ok.inj hinner
  exact ⟨leaf, others, hleaf, hothers, (Except.ok.inj h).symm⟩

/-- The leaves of comparisons are found in their inner leaves by whatever finds a leaf inside nested
fields. -/
theorem forall₂_innerLeaves {find : SearchQuery → List SearchQuery}
    (hfind : ∀ (criteria : Criteria) (path : String) (leaf : SearchQuery) (fields : List String),
      context.leaf criteria path = .ok leaf → find (fields.foldr .nested leaf) = [leaf])
    {queries : List SearchQuery} (h : context.innerLeaves root leaves = .ok queries) :
    List.Forall₂ (fun criteria leaf => context.leaf criteria criteria.path = .ok leaf) leaves
      (queries.flatMap find) := by
  induction leaves generalizing queries with
  | nil =>
    obtain rfl : [] = queries := Except.ok.inj h
    exact .nil
  | cons criteria rest ih =>
    obtain ⟨leaf, others, hleaf, hothers, rfl⟩ := innerLeaves_cons h
    rw [List.flatMap_cons, hfind _ _ _ _ hleaf]
    exact .cons hleaf (ih hothers)

/-- The parts of the query for comparisons below `root`: what one element has to satisfy, and what is
excluded. -/
def parts (context : SearchContext) (root : String) (connective : Connective)
    (positive excluded : List SearchQuery) : List SearchQuery :=
  (if positive.isEmpty then [] else [.nested root (context.compound connective positive)]) ++
    excluded.map (context.exclusion root connective positive)

/-- Parts joined by a connective; a single part stands for itself. -/
def joinParts (context : SearchContext) (connective : Connective) : List SearchQuery → SearchQuery
  | [part] => part
  | parts => context.compound connective parts

/-- The query for comparisons below a nested field is made of the leaves of those that are not negated and
of those that are, as far as they have leaves. -/
theorem combine_eq (context : SearchContext) (root : String) (connective : Connective)
    (leaves : List Criteria) : context.combine root connective leaves = (do
      let positive ← context.innerLeaves root (leaves.filter fun c => !c.relationship.isNegated)
      let excluded ← context.innerLeaves root (leaves.filter fun c => c.relationship.isNegated)
      return context.wrapNested root
        (context.joinParts connective (context.parts root connective positive excluded))) := by
  rw [combine]
  refine bind_congr fun positive => bind_congr fun excluded => ?_
  simp only [joinParts, parts]
  split <;> simp_all

/-- The query for comparisons below a nested field is put together from the leaves of those that are
not negated and of those that are. -/
theorem combine_eq_ok_iff : context.combine root connective leaves = .ok query ↔
    ∃ positive excluded,
      context.innerLeaves root (leaves.filter fun c => !c.relationship.isNegated) = .ok positive ∧
      context.innerLeaves root (leaves.filter fun c => c.relationship.isNegated) = .ok excluded ∧
      query = context.wrapNested root
        (context.joinParts connective (context.parts root connective positive excluded)) := by
  simp only [combine_eq, Outcome.bind_eq_ok_iff, exists_and_left, Outcome.pure_eq_ok, Except.ok.injEq,
    eq_comm (a := query)]

/-- One query for several comparisons is that of a nested field that they share. None of them selects
an element. -/
theorem exists_root_of_combinedNested
    (h : context.combinedNested connective leaves = .ok (some query)) :
    (∀ criteria ∈ leaves, criteria.selects = false) ∧
      ∃ root, context.schema.groupingRoot? .nested (leaves.map Criteria.path) = some root ∧
        context.combine root connective leaves = .ok query := by
  obtain ⟨found, hfound, h⟩ := Outcome.bind_eq_ok_iff.mp h
  rw [paths_eq_ok hfound] at h
  split at h
  · simp at h
  case isFalse hselects =>
    split at h
    case h_1 => simp at h
    case h_2 root hroot =>
      obtain ⟨combined, hcombined, h⟩ := Outcome.bind_eq_ok_iff.mp h
      obtain rfl : combined = query := by simpa using h
      exact ⟨by simpa using hselects, root, hroot, hcombined⟩

/-- A group has a query as a whole when it is empty, and when its comparisons select nothing and share
a nested field. -/
theorem of_wholeGroup {children : List Tree}
    (h : context.wholeGroup connective children = .ok (some query)) :
    (children = [] ∧ query = .matchAll) ∨
      ∃ leaves root, Tree.criteria? children = some leaves ∧
        (∀ criteria ∈ leaves, criteria.selects = false) ∧
        context.schema.groupingRoot? .nested (leaves.map Criteria.path) = some root ∧
        context.combine root connective leaves = .ok query := by
  unfold wholeGroup at h
  split at h
  · exact Or.inl ⟨rfl, by simpa using h.symm⟩
  · rename_i leaves hleaves
    obtain ⟨hselects, root, hroot, hcombined⟩ := exists_root_of_combinedNested h
    exact Or.inr ⟨leaves, root, hleaves, hselects, hroot, hcombined⟩
  · simp at h

/-- Comparisons that share a nested field have the query of a group as far as they are combined. -/
theorem wholeGroup_map_leaf
    (hroot : context.schema.groupingRoot? .nested (leaves.map Criteria.path) = some root) :
    context.wholeGroup connective (leaves.map .leaf) = context.combinedNested connective leaves := by
  have hcriteria := Tree.criteria?_map_leaf leaves
  match leaves, hroot with
  | first :: second :: rest, _ =>
    simp only [List.map_cons] at hcriteria ⊢
    simp only [wholeGroup, hcriteria]

/-- A group without a query as a whole is not joined. -/
theorem joins_eq_false_of_wholeGroup {children : List Tree}
    (h : context.wholeGroup connective children = .ok none) :
    context.schema.joins children = false := by
  refine Bool.eq_false_iff.mpr fun hjoins => ?_
  obtain ⟨leaves, root, hleaves, hselects, hroot⟩ := Schema.joins_eq_true_iff.mp hjoins
  rw [Tree.eq_map_of_criteria? hleaves, wholeGroup_map_leaf hroot] at h
  obtain ⟨found, hfound, h⟩ := Outcome.bind_eq_ok_iff.mp h
  have hnone : found.any AttributePath.isFiltered = false := by
    rw [paths_eq_ok hfound]
    simpa using hselects
  simp only [hnone, Bool.false_eq_true, if_false, hroot] at h
  obtain ⟨combined, _, h⟩ := Outcome.bind_eq_ok_iff.mp h
  simp at h

/-- The query of a group is that of every document, or that of a nested field that its comparisons
share, or is put together from its items when the group is not joined. -/
theorem query_group_cases {children : List Tree}
    (h : context.query (.group connective children) = .ok query) :
    (children = [] ∧ query = .matchAll) ∨
      (∃ leaves root, Tree.criteria? children = some leaves ∧
        (∀ criteria ∈ leaves, criteria.selects = false) ∧
        context.schema.groupingRoot? .nested (leaves.map Criteria.path) = some root ∧
        context.combine root connective leaves = .ok query) ∨
      context.schema.joins children = false ∧ ∃ queries, context.queries children = .ok queries ∧
        query = context.compound connective queries := by
  rw [SearchContext.query] at h
  obtain ⟨whole, hwhole, h⟩ := Outcome.bind_eq_ok_iff.mp h
  cases whole with
  | none =>
    obtain ⟨queries, hqueries, h⟩ := Outcome.bind_eq_ok_iff.mp h
    exact Or.inr (Or.inr ⟨joins_eq_false_of_wholeGroup hwhole, queries, hqueries,
      (Except.ok.inj h).symm⟩)
  | some found =>
    obtain rfl : found = query := Except.ok.inj h
    exact (of_wholeGroup hwhole).imp_right Or.inl

/-- A group of plain comparisons that share a nested field has the query of that field. -/
theorem query_eq_combine (hplain : ∀ criteria ∈ leaves, criteria.isPlain = true)
    (hroot : context.schema.groupingRoot? .nested (leaves.map Criteria.path) = some root) :
    context.query (.group connective (leaves.map .leaf)) = context.combine root connective leaves := by
  obtain ⟨found, hfound, hselects⟩ := paths_of_isPlain hplain
  have hcombined : context.combinedNested connective leaves =
      (context.combine root connective leaves).map some := by
    rw [combinedNested, hfound, Outcome.ok_bind, hselects]
    simp only [Bool.false_eq_true, if_false, hroot]
    rfl
  rw [SearchContext.query, wholeGroup_map_leaf hroot, hcombined]
  cases context.combine root connective leaves <;> rfl

end SearchContext

end FilterRules
