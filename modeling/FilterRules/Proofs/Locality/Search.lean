import FilterRules.Proofs.Locality.Document
import FilterRules.Proofs.Search.Acceptance
import FilterRules.Proofs.Search.Combination

/-!
# What a compilation reads of a schema

A search query reads the nested fields above the attributes of its comparisons and the keys of their
selections, and a group reads the nested field that its comparisons share, with those above it. All of
these are places that the comparisons lead to. So whether a list is valid and what its two queries are
depends on what a schema declares at the places of the list, and on nothing else in the schema.
-/

namespace FilterRules

namespace SearchContext

variable {schema other : Schema} {settings : Settings} {scoring : Bool} {path : AttributePath}
  {criteria : Criteria} {leaves : List Criteria} {root : String}

/-- The query for a selection is the same. -/
theorem elementFilter_readAlike (h : schema.AgreeOn other path.places) :
    elementFilter ⟨schema, settings, scoring⟩ path =
      elementFilter ⟨other, settings, scoring⟩ path := by
  rw [elementFilter, elementFilter, h.emittedFilter_eq]
  refine bind_congr fun literal => ?_
  cases hkey : path.keyPath? with
  | none => rfl
  | some keyPath =>
    have hexact : keyIsExact ⟨schema, settings, scoring⟩ keyPath =
        keyIsExact ⟨other, settings, scoring⟩ keyPath := by
      rw [keyIsExact, keyIsExact, h.lookup_keyPath hkey]
    cases literal with
    | none => rfl
    | some value =>
      simp only [hexact]
      rfl

/-- The nested fields around a query are the same. -/
theorem wrapNested_readAlike {text : String}
    (h : schema.AgreeOn other (Dotted.ancestors text)) (query : SearchQuery) :
    wrapNested ⟨schema, settings, scoring⟩ text query =
      wrapNested ⟨other, settings, scoring⟩ text query := by
  rw [wrapNested, wrapNested, h.nestedAncestors_eq]

/-- A comparison on its own has the same query. -/
theorem criteria_readAlike (h : criteria.IsReadAlike schema other) :
    SearchContext.criteria ⟨schema, settings, scoring⟩ criteria =
      SearchContext.criteria ⟨other, settings, scoring⟩ criteria := by
  obtain ⟨path, hpath, hagree, _⟩ := h
  rw [SearchContext.criteria, SearchContext.criteria, AttributePath.parseAt_eq_ok_iff.mpr hpath,
    Outcome.ok_bind, Outcome.ok_bind]
  refine bind_congr fun leaf => ?_
  simp only [elementFilter_readAlike hagree, wrapNested_readAlike hagree.ancestors]

/-- Comparisons that select nothing and are read alike are so above their attributes. -/
theorem agreeOn_ancestors (h : criteria.IsReadAlike schema other) (hselects : criteria.selects = false) :
    schema.AgreeOn other (Dotted.ancestors criteria.path) := by
  obtain ⟨path, hpath, hagree, hspelled⟩ := h
  rw [Criteria.selects, hpath] at hselects
  exact hspelled hselects ▸ hagree.ancestors

/-- The inner leaves of comparisons are the same. -/
theorem innerLeaves_readAlike (h : ∀ criteria ∈ leaves,
      schema.AgreeOn other (Dotted.ancestors criteria.path)) :
    innerLeaves ⟨schema, settings, scoring⟩ root leaves =
      innerLeaves ⟨other, settings, scoring⟩ root leaves := by
  induction leaves with
  | nil => rfl
  | cons criteria rest ih =>
    obtain ⟨hfirst, hrest⟩ := List.forall_mem_cons.mp h
    rw [innerLeaves, innerLeaves, ih hrest, innerLeaf, innerLeaf, hfirst.nestedAncestors_eq]
    rfl

/-- Comparisons below a nested field have the same query. -/
theorem combine_readAlike (connective : Connective)
    (hroot : schema.AgreeOn other (Dotted.ancestors root))
    (h : ∀ criteria ∈ leaves, schema.AgreeOn other (Dotted.ancestors criteria.path)) :
    combine ⟨schema, settings, scoring⟩ root connective leaves =
      combine ⟨other, settings, scoring⟩ root connective leaves := by
  have hleaves (select : Criteria → Bool) :
      innerLeaves ⟨schema, settings, scoring⟩ root (leaves.filter select) =
        innerLeaves ⟨other, settings, scoring⟩ root (leaves.filter select) :=
    innerLeaves_readAlike fun criteria hcriteria => h criteria (List.mem_filter.mp hcriteria).1
  rw [combine, combine, hleaves, hleaves]
  simp only [wrapNested_readAlike hroot]
  rfl

/-- Several comparisons have the same query as a whole, or none. -/
theorem combinedNested_readAlike (connective : Connective)
    (h : ∀ criteria ∈ leaves, criteria.IsReadAlike schema other) :
    combinedNested ⟨schema, settings, scoring⟩ connective leaves =
      combinedNested ⟨other, settings, scoring⟩ connective leaves := by
  rw [combinedNested, combinedNested]
  cases hpaths : paths leaves with
  | error error => rfl
  | ok found =>
    rw [Outcome.ok_bind, Outcome.ok_bind, paths_eq_ok hpaths]
    cases hselects : leaves.any Criteria.selects with
    | true => rfl
    | false =>
      have hagree : ∀ criteria ∈ leaves, schema.AgreeOn other (Dotted.ancestors criteria.path) :=
        fun criteria hcriteria => agreeOn_ancestors (h criteria hcriteria)
          (by simpa using List.any_eq_false.mp hselects criteria hcriteria)
      have hsame := Schema.AgreeOn.groupingRoot?_eq (List.forall_mem_map.mpr hagree) .nested
      simp only [← hsame]
      cases hroot : schema.groupingRoot? .nested (leaves.map Criteria.path) with
      | none => rfl
      | some root =>
        have habove := Schema.AgreeOn.above_groupingRoot (List.forall_mem_map.mpr hagree) hroot
        simp only [combine_readAlike connective habove hagree]

/-- A group has the same query as a whole, or none. -/
theorem wholeGroup_readAlike (connective : Connective) {children : List Tree}
    (h : ∀ criteria ∈ Tree.leavesOf children, criteria.IsReadAlike schema other) :
    wholeGroup ⟨schema, settings, scoring⟩ connective children =
      wholeGroup ⟨other, settings, scoring⟩ connective children := by
  rw [wholeGroup.eq_def, wholeGroup.eq_def]
  split
  · rfl
  · rename_i leaves hleaves
    rw [Tree.leavesOf_eq_of_criteria? hleaves] at h
    exact combinedNested_readAlike connective h
  · rfl

mutual

/-- A tree whose comparisons are read alike has the same query. -/
theorem query_readAlike : (tree : Tree) →
    (∀ criteria ∈ tree.leaves, criteria.IsReadAlike schema other) →
    query ⟨schema, settings, scoring⟩ tree = query ⟨other, settings, scoring⟩ tree
  | .leaf criteria, h => by
    rw [query, query]
    exact criteria_readAlike (h criteria (by simp [Tree.leaves]))
  | .group connective children, h => by
    rw [query, query, wholeGroup_readAlike connective h, queries_readAlike children h]
    rfl

/-- Trees whose comparisons are read alike have the same queries. -/
theorem queries_readAlike : (trees : List Tree) →
    (∀ criteria ∈ Tree.leavesOf trees, criteria.IsReadAlike schema other) →
    queries ⟨schema, settings, scoring⟩ trees = queries ⟨other, settings, scoring⟩ trees
  | [], _ => by rw [queries, queries]
  | tree :: trees, h => by
    obtain ⟨hfirst, hrest⟩ := List.forall_mem_append.mp h
    rw [queries, queries, query_readAlike tree hfirst, queries_readAlike trees hrest]

end

end SearchContext

namespace Compiler

variable {schema other : Schema} {settings : Settings} {rules : List Rule}

/-- The search query of a valid list with canonical attributes is the same under schemas that agree on
the places of the list. -/
theorem searchQuery_readAlike (hvalid : validate rules schema = .ok ())
    (hcanonical : IsCanonical rules) (hagree : schema.AgreeOn other (placesOf rules)) :
    searchQuery ⟨schema, settings⟩ rules = searchQuery ⟨other, settings⟩ rules := by
  have hother := hagree.validate_eq.symm.trans hvalid
  rw [searchQuery_of_validate hvalid, searchQuery_of_validate hother, ← hagree.convertedRules_eq]
  cases htree : Tree.ofRules (convertedRules rules schema settings true) with
  | error error => rfl
  | ok tree =>
    have horder := checkOrder_of_validate (validate_convertedRules settings true hvalid)
    refine SearchContext.query_readAlike tree fun criteria hcriteria => ?_
    rw [Tree.mem_leaves_of_ofRules horder htree] at hcriteria
    exact isReadAlike_of_validate hvalid hcanonical hagree criteria hcriteria

/-- Whether a list is compiled alike under two schemas: its check and its queries have the same results or
the same faults. -/
def CompiledAlike (settings : Settings) (schema other : Schema) (rules : List Rule) : Prop :=
  validate rules schema = validate rules other ∧
    documentQuery ⟨schema, settings⟩ rules = documentQuery ⟨other, settings⟩ rules ∧
    searchQuery ⟨schema, settings⟩ rules = searchQuery ⟨other, settings⟩ rules

/-- A list that fails its check under two schemas in the same way is compiled alike under them. -/
theorem compiledAlike_of_validate (hsame : validate rules schema = validate rules other)
    {error : CompileError} (h : validate rules schema = .error error) :
    CompiledAlike settings schema other rules := by
  have hother := hsame.symm.trans h
  refine ⟨hsame, ?_, ?_⟩
  · rw [documentQuery, documentQuery, h, hother]
    rfl
  · rw [searchQuery, searchQuery, h, hother]
    rfl

/-- A list with canonical attributes is compiled alike under all schemas that declare the same at the
fields of its comparisons, above those fields and at the keys of its selections. So nothing that is
declared elsewhere, anew or in place of something else, changes a query or a fault. -/
theorem compiledAlike_of_agreeOn (settings : Settings) (schema : Schema)
    (hcanonical : IsCanonical rules) :
    (∀ other, schema.AgreeOn other (placesOf rules) → CompiledAlike settings schema other rules) ∧
      ∀ place declared, place ∉ placesOf rules →
        CompiledAlike settings schema (schema.insert place declared) rules := by
  have hall (other : Schema) (hagree : schema.AgreeOn other (placesOf rules)) :
      CompiledAlike settings schema other rules := by
    cases hvalid : validate rules schema with
    | error error => exact compiledAlike_of_validate hagree.validate_eq hvalid
    | ok result =>
      exact ⟨hagree.validate_eq, documentQuery_readAlike hvalid hcanonical hagree,
        searchQuery_readAlike hvalid hcanonical hagree⟩
  exact ⟨hall, fun place declared hplace => hall _ (schema.agreeOn_insert hplace declared)⟩

/-- A selection beside two comparisons below one list, under schemas that differ in what they declare
beside the compared fields. -/
theorem compiledAlike_of_agreeOn_prices :
    let schema : Schema := ⟨[("prices", .nested), ("prices.kind", .ofStrings),
      ("prices.price", .ofNumbers), ("prices.currency", .ofStrings), ("stock", .ofNumbers)]⟩
    let other : Schema := ⟨[("prices.price", .ofNumbers), ("prices.price.unit", .nested),
      ("stock", .ofDates), ("prices", .nested), ("prices.kind", .ofStrings),
      ("prices.currency", .ofStrings)]⟩
    let listed : Criteria := ⟨"prices[kind:list].price", .greater, .value (.integer 100), false⟩
    let priced : Criteria := ⟨"prices.price", .less, .value (.text "200"), false⟩
    let paid : Criteria := ⟨"prices.currency", .notEqual, .value (.text "EUR"), false⟩
    let rules : List Rule := [.separator .opening, .criteria listed, .logical .and,
      .separator .opening, .criteria priced, .logical .and, .criteria paid, .separator .closing,
      .separator .closing]
    IsCanonical rules ∧ validate rules schema = .ok () ∧
      schema.AgreeOn other (placesOf rules) ∧ CompiledAlike {} schema other rules ∧
      "stock" ∉ placesOf rules ∧ CompiledAlike {} schema (schema.insert "stock" .nested) rules := by
  intro schema other listed priced paid rules
  have hcanonical : IsCanonical rules := by
    have hthree : listed.selects = true ∧ priced.canonicalPath = priced.path ∧
        paid.canonicalPath = paid.path := by decide +kernel
    simp [IsCanonical, rules, hthree]
  have hagree : schema.AgreeOn other (placesOf rules) := by decide +kernel
  have hplace : "stock" ∉ placesOf rules := by decide +kernel
  have halike := compiledAlike_of_agreeOn {} schema hcanonical
  exact ⟨hcanonical, by decide +kernel, hagree, halike.1 other hagree, hplace,
    halike.2 "stock" .nested hplace⟩

end Compiler

end FilterRules
