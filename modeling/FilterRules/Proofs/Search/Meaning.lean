import FilterRules.Compilation
import FilterRules.Proofs.Rule.Infix
import FilterRules.Proofs.Schema.Grouping
import FilterRules.Proofs.Validity

/-!
# The meaning of a search query

A search query has a truth value under every assignment of truth values to its leaf queries. Where
no attribute is a list of sub-documents, that value is the value of the rule list as an infix
expression: whichever lists of a combination its parts are put into, and whether or not documents
are ranked, a group holds when its connective says so.
-/

namespace FilterRules

mutual

/-- The truth value of a query; a query that is no combination has the value that it is given. -/
def SearchQuery.eval (truth : SearchQuery → Bool) : SearchQuery → Bool
  | .matchAll => true
  | .bool must filter should mustNot =>
    (SearchQuery.evals truth must).all id && (SearchQuery.evals truth filter).all id &&
      !(SearchQuery.evals truth mustNot).any id &&
      (!must.isEmpty || !filter.isEmpty || should.isEmpty ||
        (SearchQuery.evals truth should).any id)
  | leaf => truth leaf

/-- The truth values of queries. -/
def SearchQuery.evals (truth : SearchQuery → Bool) : List SearchQuery → List Bool
  | [] => []
  | query :: queries => query.eval truth :: SearchQuery.evals truth queries

end

/-- Whether a query asks for the values of one field. -/
def SearchQuery.isLeaf : SearchQuery → Bool
  | .matchAll => false
  | .nested _ _ => false
  | .bool _ _ _ _ => false
  | _ => true

/-- The leaf of a criteria asks for the values of one field. -/
theorem SearchContext.isLeaf_leaf {context : SearchContext} {criteria : Criteria} {path : String}
    {leaf : SearchQuery} (h : context.leaf criteria path = .ok leaf) : leaf.isLeaf = true := by
  cases hrelationship : criteria.relationship <;> rw [SearchContext.leaf, hrelationship] at h
  all_goals
    obtain ⟨_, _, rfl⟩ := Outcome.map_eq_ok_iff.mp h
    rfl

/-- A schema in which no attribute is a list of sub-documents. -/
def Schema.IsFlat (schema : Schema) : Prop :=
  ∀ path declared, schema.lookup path = some declared → declared.isNested = false

/-- A criteria that makes the test of another one without negation. -/
def Criteria.positive (criteria : Criteria) : Criteria :=
  { criteria with relationship := criteria.relationship.positive }

/-- The truth value of a criteria with converted literals: that of its test, or its negation, and
that of its selection if it has one. -/
def SearchContext.meaning? (context : SearchContext) (truth : SearchQuery → Bool)
    (criteria : Criteria) : Option Bool := do
  let path ← AttributePath.parse? criteria.path
  let leaf ← (context.leaf criteria.positive path.schemaPath).toOption
  let selection ← (context.elementFilter path).toOption
  let holds := if criteria.relationship.isNegated then !truth leaf else truth leaf
  return selection.all truth && holds

/-- The truth value of a criteria, if its literals can be converted. -/
def Compiler.meaning? (compiler : Compiler) (truth : SearchQuery → Bool) (criteria : Criteria) :
    Option Bool := do
  let converted ← (criteria.convert 0 compiler.schema compiler.settings true).toOption
  SearchContext.meaning? ⟨compiler.schema, compiler.settings, false⟩ truth converted

namespace Schema.IsFlat

variable {schema : Schema}

/-- A flat schema lacks lists of sub-documents. -/
theorem lacks_nested (h : schema.IsFlat) : schema.Lacks .nested := h

/-- A schema is flat when none of its entries is a list of sub-documents. -/
theorem of_entries {entries : List (String × AttributeType)}
    (h : ∀ entry ∈ entries, entry.2.isNested = false) : Schema.IsFlat ⟨entries⟩ :=
  Schema.Lacks.of_entries (show ∀ entry ∈ entries, RootKind.nested.accepts entry.2 = false from h)

/-- No path in a flat schema lies below a nested field. -/
theorem nestedAncestors (h : schema.IsFlat) (path : String) : schema.nestedAncestors path = [] := by
  have hplace : ∀ place, (schema.lookup place).any (·.isNested) = false := h.lacks_nested.any_accepts
  simp [Schema.nestedAncestors, hplace]

end Schema.IsFlat

namespace SearchContext

variable {context : SearchContext} {truth : SearchQuery → Bool}

/-- The leaf of a criteria is that of the criteria without negation. -/
theorem leaf_positive (criteria : Criteria) (path : String) :
    (context.leaf criteria.positive path).toOption = (context.leaf criteria path).toOption := by
  obtain ⟨field, relationship, operand, exactMatch⟩ := criteria
  cases relationship <;> cases operand <;> rfl

/-- The value of a leaf is the one that it is given. -/
theorem eval_leaf {criteria : Criteria} {path : String} {leaf : SearchQuery}
    (h : context.leaf criteria path = .ok leaf) : leaf.eval truth = truth leaf := by
  have hleaf := isLeaf_leaf h
  cases leaf with
  | matchAll | nested | bool => cases hleaf
  | _ => simp [SearchQuery.eval]

/-- The value of a selection is the one that it is given. -/
theorem eval_elementFilter {path : AttributePath} {selection : SearchQuery}
    (h : context.elementFilter path = .ok (some selection)) :
    selection.eval truth = truth selection := by
  obtain ⟨literal, _, h⟩ := Outcome.bind_eq_ok_iff.mp h
  split at h
  · obtain rfl := Option.some.inj (Except.ok.inj h)
    simp [SearchQuery.eval]
  · simp at h

/-- A combination by a connective holds when the connective says so. -/
theorem eval_compound (connective : Connective) {queries : List SearchQuery} (hne : queries ≠ []) :
    (context.compound connective queries).eval truth =
      connective.holds (SearchQuery.evals truth queries) := by
  have hempty : queries.isEmpty = false := by simpa using hne
  cases connective with
  | and =>
    rw [compound]
    split <;> simp [SearchQuery.eval, SearchQuery.evals, Connective.holds, hempty]
  | or => simp [compound, SearchQuery.eval, SearchQuery.evals, Connective.holds, hempty]

/-- Ranking does not change the value of a criteria. -/
theorem meaning?_scoring (schema : Schema) (settings : Settings) (scoring other : Bool) :
    meaning? ⟨schema, settings, scoring⟩ truth = meaning? ⟨schema, settings, other⟩ truth := rfl

/-- The query of a criteria in a flat schema has the criteria's value. -/
theorem eval_criteria (hflat : context.schema.IsFlat) {criteria : Criteria} {query : SearchQuery}
    (h : context.criteria criteria = .ok query) :
    context.meaning? truth criteria = some (query.eval truth) := by
  obtain ⟨path, hpath, h⟩ := Outcome.bind_eq_ok_iff.mp h
  obtain ⟨leaf, hleaf, h⟩ := Outcome.bind_eq_ok_iff.mp h
  obtain ⟨selection, hselection, h⟩ := Outcome.bind_eq_ok_iff.mp h
  have hparse := AttributePath.parseAt_eq_ok_iff.mp hpath
  have hpositive : (context.leaf criteria.positive path.schemaPath).toOption = some leaf := by
    rw [leaf_positive, hleaf]
    rfl
  have hwrap : ∀ inner, context.wrapNested path.schemaPath inner = inner := by
    simp [wrapNested, hflat.nestedAncestors]
  have hmeaning : context.meaning? truth criteria = some (selection.all truth &&
      if criteria.relationship.isNegated then !truth leaf else truth leaf) := by
    simp only [meaning?, hparse, Option.bind_eq_bind, Option.bind_some]
    rw [hpositive, hselection]
    rfl
  have hleafValue : leaf.eval truth = truth leaf := eval_leaf hleaf
  simp only [hwrap] at h
  rw [hmeaning]
  cases selection with
  | none =>
    obtain rfl := Except.ok.inj h
    cases criteria.relationship.isNegated <;>
      simp [hleafValue, SearchQuery.noneOf, SearchQuery.eval, SearchQuery.evals]
  | some filter =>
    have hfilterValue : filter.eval truth = truth filter := eval_elementFilter hselection
    obtain rfl := Except.ok.inj h
    cases criteria.relationship.isNegated <;>
      simp [hleafValue, hfilterValue, SearchQuery.filtering, SearchQuery.eval, SearchQuery.evals]

/-- In a flat schema a group that is not empty has no query as a whole. -/
theorem wholeGroup_eq_none (hflat : context.schema.IsFlat) {connective : Connective}
    {children : List Tree} {whole : Option SearchQuery} (hne : children ≠ [])
    (h : context.wholeGroup connective children = .ok whole) : whole = none := by
  unfold wholeGroup at h
  split at h
  · exact absurd rfl hne
  · obtain ⟨paths, _, h⟩ := Outcome.bind_eq_ok_iff.mp h
    split at h
    · exact (Except.ok.inj h).symm
    · rw [hflat.lacks_nested.groupingRoot?_eq_none] at h
      exact (Except.ok.inj h).symm
  · exact (Except.ok.inj h).symm

/-- In a flat schema the query of a group that is not empty is put together from its items. -/
theorem query_group (hflat : context.schema.IsFlat) {connective : Connective} {children : List Tree}
    {query : SearchQuery} (hne : children ≠ [])
    (h : context.query (.group connective children) = .ok query) :
    ∃ queries, context.queries children = .ok queries ∧
      query = context.compound connective queries := by
  rw [SearchContext.query] at h
  obtain ⟨whole, hfound, h⟩ := Outcome.bind_eq_ok_iff.mp h
  obtain rfl := wholeGroup_eq_none hflat hne hfound
  obtain ⟨queries, hqueries, h⟩ := Outcome.bind_eq_ok_iff.mp h
  exact ⟨queries, hqueries, (Except.ok.inj h).symm⟩

/-- The queries of trees, one after the other. -/
theorem queries_cons {tree : Tree} {trees : List Tree} {found : List SearchQuery}
    (h : context.queries (tree :: trees) = .ok found) :
    ∃ query queries, context.query tree = .ok query ∧ context.queries trees = .ok queries ∧
      found = query :: queries := by
  rw [SearchContext.queries] at h
  obtain ⟨query, hquery, h⟩ := Outcome.bind_eq_ok_iff.mp h
  obtain ⟨queries, hqueries, h⟩ := Outcome.bind_eq_ok_iff.mp h
  exact ⟨query, queries, hquery, hqueries, (Except.ok.inj h).symm⟩

end SearchContext

variable {context : SearchContext} {truth : SearchQuery → Bool}

mutual

/-- The query of an item's tree has the item's value. -/
theorem Item.HasTree.value_eq (hflat : context.schema.IsFlat) : {item : Item} → {tree : Tree} →
    item.HasTree tree → {query : SearchQuery} → context.query tree = .ok query →
    item.value? (context.meaning? truth) = some (query.eval truth)
  | .criteria criteria, _, .criteria _, query, hquery => by
    rw [SearchContext.query] at hquery
    exact SearchContext.eval_criteria hflat hquery
  | .empty, _, .empty, query, hquery => by
    rw [SearchContext.query] at hquery
    obtain rfl : .matchAll = query := Except.ok.inj hquery
    simp [Item.value?, SearchQuery.eval]
  | .group _ (.single item), _, .lone hitem, query, hquery => by
    obtain ⟨found, hfound, rfl⟩ := SearchContext.query_group hflat (by simp) hquery
    obtain ⟨first, queries, hfirst, hqueries, rfl⟩ := SearchContext.queries_cons hfound
    obtain rfl : [] = queries := Except.ok.inj hqueries
    rw [SearchContext.eval_compound .and (by simp)]
    simp [Item.value?, Items.values?, hitem.value_eq hflat hfirst, Items.connective,
      Items.connectives, SearchQuery.evals]
  | .group lead (.joined item connective others), _, .joined hlead hitem hothers, query,
      hquery => by
    obtain ⟨found, hfound, rfl⟩ := SearchContext.query_group hflat (by simp) hquery
    obtain ⟨first, queries, hfirst, hqueries, rfl⟩ := SearchContext.queries_cons hfound
    have hvalue := hitem.value_eq hflat hfirst
    have hvalues := hothers.values_eq hflat hqueries
    have hconnective : (Items.joined item connective others).connective lead = connective := by
      cases lead with
      | none => rfl
      | some found => exact hlead found rfl
    rw [SearchContext.eval_compound connective (by simp), Item.value?, hconnective]
    simp [Items.values?, hvalue, hvalues, SearchQuery.evals]

/-- The queries of the trees of items have the items' values. -/
theorem Items.HaveTrees.values_eq (hflat : context.schema.IsFlat) : {items : Items} →
    {connective : Connective} → {trees : List Tree} → items.HaveTrees connective trees →
    {queries : List SearchQuery} → context.queries trees = .ok queries →
    items.values? (context.meaning? truth) = some (SearchQuery.evals truth queries)
  | .single item, _, _, .single hitem, found, hfound => by
    obtain ⟨query, queries, hquery, hqueries, rfl⟩ := SearchContext.queries_cons hfound
    obtain rfl : [] = queries := Except.ok.inj hqueries
    simp [Items.values?, hitem.value_eq hflat hquery, SearchQuery.evals]
  | .joined item _ others, _, _, .joined hitem hothers, found, hfound => by
    obtain ⟨query, queries, hquery, hqueries, rfl⟩ := SearchContext.queries_cons hfound
    have hvalue := hitem.value_eq hflat hquery
    have hvalues := hothers.values_eq hflat hqueries
    simp [Items.values?, hvalue, hvalues, SearchQuery.evals]

end

/-- The query of a rule list in a flat schema has the value of the list as an infix expression,
under every assignment of truth values to leaf queries. The list is such an expression, and however
it is read as one it has that value. -/
theorem Compiler.eval_searchQuery {compiler : Compiler} {rules : List Rule} {query : SearchQuery}
    (truth : SearchQuery → Bool) (hflat : compiler.schema.IsFlat)
    (h : compiler.searchQuery rules = .ok query) :
    (∃ item : Item, item.rules = rules) ∧ ∀ item : Item, item.rules = rules →
      item.value? (compiler.meaning? truth) = some (query.eval truth) := by
  obtain ⟨⟨⟩, hvalid, h⟩ := Outcome.bind_eq_ok_iff.mp h
  obtain ⟨converted, hconverted, h⟩ := Outcome.bind_eq_ok_iff.mp h
  obtain ⟨tree, htree, hquery⟩ := Outcome.bind_eq_ok_iff.mp h
  obtain ⟨rfl, hconvert⟩ := convertFrom_eq_ok hconverted
  have horder := checkOrder_of_validate hvalid
  constructor
  · obtain ⟨groups, hgroups, rfl⟩ := exists_groups_of_checkOrder horder
    rw [← Item.rulesOf_map] at htree
    obtain ⟨item, hitem, _⟩ := exists_item_of_groups (by simpa using hgroups) htree
    match groups, hitem with
    | [only], _ => exact ⟨only, Item.rulesOf_single.symm⟩
  · rintro item rfl
    have hgroup : item.isGroup := by
      cases item with
      | criteria criteria => simp [Item.rules, checkOrder, Marker.run, Marker.step] at horder
      | empty => rfl
      | group lead items => rfl
    -- Conversion changes comparisons alone, so that the converted rules are those of a changed item.
    rw [← Item.rules_map, Tree.ofRules_item (by simpa using hgroup)] at htree
    rw [← (Item.hasTree_of_tree _ htree).value_eq hflat hquery]
    refine (Item.value?_map item ?_).symm
    intro criteria hcriteria
    rw [meaning?, hconvert criteria hcriteria]
    exact congrFun (SearchContext.meaning?_scoring _ _ _ _) _

/-- A negated comparison beside a group with a selection, when only the price is as asked. -/
theorem Compiler.eval_searchQuery_selection :
    let compiler : Compiler := ⟨⟨[("codes.value", .ofStrings), ("price", .ofNumbers),
      ("type", .ofStrings)]⟩, {}⟩
    let typed : Criteria := ⟨"type", .notEqual, .value (.text "book"), false⟩
    let coded : Criteria := ⟨"codes[kind:isbn].value", .equal, .value (.text "7"), false⟩
    let priced : Criteria := ⟨"price", .greater, .value (.integer 10), false⟩
    let item : Item := .group none (.joined (.criteria typed) .or (.single
      (.group (some .and) (.joined (.criteria coded) .and (.single (.criteria priced))))))
    let truth : SearchQuery → Bool := fun
      | .range _ _ _ => true
      | _ => false
    let query : SearchQuery := .bool [] [] [
      .noneOf [.term "type.keyword" (.text "book")],
      .bool [] [.filtering [.term "codes.kind.keyword" (.text "isbn"),
        .term "codes.value.keyword" (.text "7")], .range "price" .greater (.integer 10)] [] []] []
    compiler.schema.IsFlat ∧ compiler.searchQuery item.rules = .ok query ∧
      item.value? (compiler.meaning? truth) = some true := by
  intro compiler typed coded priced item truth query
  have hflat : compiler.schema.IsFlat := Schema.IsFlat.of_entries (by decide)
  have hquery : compiler.searchQuery item.rules = .ok query := by cbv
  refine ⟨hflat, hquery, ?_⟩
  rw [(Compiler.eval_searchQuery truth hflat hquery).2 item rfl]
  rfl

end FilterRules
