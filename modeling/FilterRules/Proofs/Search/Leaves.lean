import FilterRules.Proofs.Search.Selection

/-!
# The leaves of a search query

A leaf compares a field by a test with an operand, and is known from these three. The leaves of the
query of a list are exactly those that its comparisons ask for: each has one for its own test, whether or
not it is negated, and one for the key that it selects an element by. However the comparisons are
grouped, combined below a nested field or copied into the exclusions of their siblings, none of these is
lost and no other one is made. The operand is the converted one, except that what a text starts with is
always a text itself.
-/

namespace FilterRules

/-- What a leaf compares. -/
structure Comparison where
  /-- The field, or its exact form. -/
  field : String
  /-- The test of the field. -/
  test : Test
  /-- What the field is compared with. -/
  operand : Operand
deriving DecidableEq

/-- The test that a bound makes. -/
def RangeBound.test : RangeBound → Test
  | .greater => .greater
  | .less => .less
  | .greaterOrEqual => .greaterOrEqual
  | .lessOrEqual => .lessOrEqual

namespace SearchQuery

/-- What a query compares, if it is a leaf. -/
def comparison? : SearchQuery → Option Comparison
  | .matchAll => none
  | .term field value => some ⟨field, .equal, .value value⟩
  | .terms field values => some ⟨field, .oneOf, .values values⟩
  | .termsSet field values => some ⟨field, .allOf, .values values⟩
  | .fullText field value => some ⟨field, .like, .value value⟩
  | .startsWith field start => some ⟨field, .startsWith, .value (.text start)⟩
  | .range field bound value => some ⟨field, bound.test, .value value⟩
  | .nested _ _ => none
  | .bool _ _ _ _ => none

/-- The leaves of a query. -/
def leaves (query : SearchQuery) : List SearchQuery := query.occurrences.map Occurrence.leaf

end SearchQuery

/-- What a leaf compares its field with: the operand, or the text of it that the field starts with. -/
def Criteria.comparedOperand (criteria : Criteria) : Operand :=
  match criteria.relationship.test, criteria.operand with
  | .startsWith, .value literal => .value (.text literal.asText)
  | _, operand => operand

namespace SearchContext

variable {context : SearchContext} {criteria : Criteria} {leaf : SearchQuery}

/-- The leaf of a criteria on a field compares the name of the field by the test of the criteria. -/
theorem leaf_eq_ok_iff {path : String} : context.leaf criteria path = .ok leaf ↔
    leaf.comparison? = some ⟨context.fieldName path criteria.exactMatch, criteria.relationship.test,
      criteria.comparedOperand⟩ := by
  rw [SearchContext.leaf, Criteria.comparedOperand, Relationship.positive]
  cases leaf with
  | range field bound value =>
    cases bound <;> cases criteria.relationship.test <;> cases hoperand : criteria.operand <;>
      simp [SearchQuery.comparison?, RangeBound.test, Test.relationship, Criteria.scalar,
        Criteria.several, hoperand, Except.map, eq_comm]
  | _ =>
    cases criteria.relationship.test <;> cases hoperand : criteria.operand <;>
      simp [SearchQuery.comparison?, Test.relationship, Criteria.scalar, Criteria.several, hoperand,
        Except.map, eq_comm]

end SearchContext

/-- A canonical attribute that is a path selects an element or is plain. -/
theorem Criteria.selects_or_isPlain {criteria : Criteria} {path : AttributePath}
    (hpath : AttributePath.parse? criteria.path = some path)
    (h : criteria.selects = true ∨ criteria.canonicalPath = criteria.path) :
    criteria.selects = true ∨ criteria.isPlain = true := by
  cases path with
  | plain segments =>
    refine h.imp_right fun hcanonical => ?_
    have htext : Dotted.ofSegments segments = criteria.path := by
      simpa [canonicalPath, hpath, AttributePath.text] using hcanonical
    simpa [isPlain, hpath] using htext
  | filtered array key value element => exact Or.inl (by simp [selects, hpath, AttributePath.isFiltered])

namespace Compiler

/-- Whether a leaf is that of the test of a criteria: it compares the field that the schema knows, or its
exact form if the converted criteria is marked, with what that compares. -/
def IsTestOf (compiler : Compiler) (criteria : Criteria) (leaf : SearchQuery) : Prop :=
  ∃ path converted, AttributePath.parse? criteria.path = some path ∧
    criteria.convert 0 compiler.schema compiler.settings true = .ok converted ∧
    leaf.comparison? = some ⟨
      if converted.exactMatch then path.schemaPath ++ compiler.settings.keywordSuffix
      else path.schemaPath, criteria.relationship.test, converted.comparedOperand⟩

/-- Whether a leaf is that of the test of a criteria on the field at a place: it compares the field, or its
exact form if the converted criteria is marked, with what that compares. -/
def IsTestAt (compiler : Compiler) (criteria : Criteria) (place : String) (leaf : SearchQuery) : Prop :=
  ∃ converted, criteria.convert 0 compiler.schema compiler.settings true = .ok converted ∧
    leaf.comparison? = some ⟨
      if converted.exactMatch then place ++ compiler.settings.keywordSuffix else place,
      criteria.relationship.test, converted.comparedOperand⟩

/-- Whether a leaf is that of the key that a criteria selects an element by. -/
def IsKeyOf (compiler : Compiler) (criteria : Criteria) (leaf : SearchQuery) : Prop :=
  ∃ path keyPath literal, AttributePath.parse? criteria.path = some path ∧
    path.keyPath? = some keyPath ∧ path.filterLiteral compiler.schema = .ok (some literal) ∧
    leaf = SearchContext.keyTerm ⟨compiler.schema, compiler.settings, false⟩ keyPath literal

variable {compiler : Compiler} {rules : List Rule} {query leaf : SearchQuery} {criteria : Criteria}
  {path : AttributePath}

/-- The leaf of the test of a criteria is that on the field that the schema knows. -/
theorem isTestOf_iff_isTestAt (hpath : AttributePath.parse? criteria.path = some path) :
    compiler.IsTestOf criteria leaf ↔ compiler.IsTestAt criteria criteria.fieldPath leaf := by
  simp [IsTestOf, IsTestAt, Criteria.fieldPath, hpath]

/-- The leaf of the test of a valid comparison is that of its conversion. -/
theorem isTestAt_iff (scoring : Bool) {place : String}
    (hvalid : validate rules compiler.schema = .ok ()) (hcriteria : Rule.criteria criteria ∈ rules) :
    compiler.IsTestAt criteria place leaf ↔
      SearchContext.leaf ⟨compiler.schema, compiler.settings, scoring⟩
        (criteria.converted compiler.schema compiler.settings true) place = .ok leaf := by
  have hconvert := convert_of_validate compiler.settings true hvalid criteria hcriteria
  simp only [IsTestAt, hconvert, Except.ok.injEq, exists_eq_left', SearchContext.leaf_eq_ok_iff,
    SearchContext.fieldName, Criteria.relationship_converted]

/-- The leaf of the test of a valid comparison alone is that of its conversion. -/
theorem isTestOf_iff (scoring : Bool) (hvalid : validate rules compiler.schema = .ok ())
    (hcriteria : Rule.criteria criteria ∈ rules)
    (hpath : AttributePath.parse? criteria.path = some path) :
    compiler.IsTestOf criteria leaf ↔
      SearchContext.leaf ⟨compiler.schema, compiler.settings, scoring⟩
        (criteria.converted compiler.schema compiler.settings true) path.schemaPath = .ok leaf := by
  rw [isTestOf_iff_isTestAt hpath, isTestAt_iff scoring hvalid hcriteria, Criteria.fieldPath, hpath]
  rfl

/-- The leaf of the key of a selection does not depend on ranking. -/
theorem isKeyOf_iff (scoring : Bool) (hpath : AttributePath.parse? criteria.path = some path) :
    compiler.IsKeyOf criteria leaf ↔ ∃ keyPath literal, path.keyPath? = some keyPath ∧
      path.emittedFilter compiler.schema = .ok (some literal) ∧
      leaf = SearchContext.keyTerm ⟨compiler.schema, compiler.settings, scoring⟩ keyPath literal := by
  simp only [IsKeyOf, hpath, Option.some.injEq, exists_and_left, exists_eq_left',
    AttributePath.emittedFilter_eq_ok_iff]
  rfl

/-- The attribute of a valid comparison is a path, and its selection has a literal. -/
theorem exists_path_of_validate (hvalid : validate rules compiler.schema = .ok ())
    (hcriteria : Rule.criteria criteria ∈ rules) :
    ∃ path literal, AttributePath.parse? criteria.path = some path ∧
      path.filterLiteral compiler.schema = .ok literal := by
  have hconvert := convert_of_validate compiler.settings true hvalid criteria hcriteria
  obtain ⟨path, _, literal, _, hpath, _, hliteral, _, _⟩ := Criteria.convert_eq_ok_iff.mp hconvert
  exact ⟨path, literal, hpath, hliteral⟩

/-- A valid comparison makes the leaf of its test and that of its key. -/
theorem exists_makesAt_iff (scoring : Bool) {place : String}
    (hvalid : validate rules compiler.schema = .ok ()) (hcriteria : Rule.criteria criteria ∈ rules) :
    (∃ occurrence : Occurrence, SearchContext.MakesAt ⟨compiler.schema, compiler.settings, scoring⟩
        (criteria.converted compiler.schema compiler.settings true) place occurrence ∧
        occurrence.leaf = leaf) ↔
      compiler.IsTestAt criteria place leaf ∨ compiler.IsKeyOf criteria leaf := by
  obtain ⟨path, _, hpath, _⟩ := exists_path_of_validate hvalid hcriteria
  rw [isTestAt_iff scoring hvalid hcriteria, isKeyOf_iff scoring hpath]
  simp only [SearchContext.MakesAt, Criteria.path_converted, hpath, Option.some.injEq,
    exists_and_left, exists_eq_left']
  constructor
  · rintro ⟨occurrence, ⟨_, hmade⟩, rfl⟩
    exact hmade
  · intro hmade
    exact ⟨⟨compiler.schema.nestedAncestors place, leaf⟩, ⟨rfl, hmade⟩, rfl⟩

/-- A valid comparison alone makes the leaf of its test and that of its key. -/
theorem exists_makes_iff (scoring : Bool) (hvalid : validate rules compiler.schema = .ok ())
    (hcriteria : Rule.criteria criteria ∈ rules) :
    (∃ occurrence : Occurrence, SearchContext.Makes ⟨compiler.schema, compiler.settings, scoring⟩
        (criteria.converted compiler.schema compiler.settings true) occurrence ∧
        occurrence.leaf = leaf) ↔
      compiler.IsTestOf criteria leaf ∨ compiler.IsKeyOf criteria leaf := by
  obtain ⟨path, _, hpath, _⟩ := exists_path_of_validate hvalid hcriteria
  have hconverted := (congrArg AttributePath.parse?
    (criteria.path_converted compiler.schema compiler.settings true)).trans hpath
  rw [isTestOf_iff_isTestAt hpath, ← exists_makesAt_iff scoring hvalid hcriteria]
  simp only [SearchContext.makes_iff hconverted, Criteria.fieldPath, Criteria.path_converted]

/-- A valid comparison has one leaf for its test on each field. -/
theorem exists_isTestAt (hvalid : validate rules compiler.schema = .ok ())
    (hcriteria : Rule.criteria criteria ∈ rules) (place : String) :
    ∃ leaf, ∀ other, compiler.IsTestAt criteria place other ↔ other = leaf := by
  have hready := isReady_of_validate compiler.settings true hvalid _
    (Rule.criteria_mem_map.mpr ⟨criteria, hcriteria, rfl⟩)
  obtain ⟨leaf, hleaf⟩ := SearchContext.exists_leaf ⟨compiler.schema, compiler.settings, false⟩
    hready.shape place
  refine ⟨leaf, fun other => ?_⟩
  rw [isTestAt_iff false hvalid hcriteria, hleaf, Except.ok.injEq, eq_comm]

/-- A valid comparison has one leaf for its test. -/
theorem existsUnique_isTestOf (hvalid : validate rules compiler.schema = .ok ())
    (hcriteria : Rule.criteria criteria ∈ rules) : ∃! leaf, compiler.IsTestOf criteria leaf := by
  obtain ⟨path, _, hpath, _⟩ := exists_path_of_validate hvalid hcriteria
  obtain ⟨leaf, hleaf⟩ := exists_isTestAt hvalid hcriteria criteria.fieldPath
  refine ⟨leaf, (isTestOf_iff_isTestAt hpath).mpr ((hleaf leaf).mpr rfl), fun other hother => ?_⟩
  exact (hleaf other).mp ((isTestOf_iff_isTestAt hpath).mp hother)

/-- A valid comparison that selects an element has one leaf for the key. -/
theorem existsUnique_isKeyOf (hvalid : validate rules compiler.schema = .ok ())
    (hcriteria : Rule.criteria criteria ∈ rules) (hselects : criteria.selects = true) :
    ∃! leaf, compiler.IsKeyOf criteria leaf := by
  obtain ⟨path, found, hpath, hfound⟩ := exists_path_of_validate hvalid hcriteria
  rw [Criteria.selects, hpath, Option.any_some] at hselects
  obtain ⟨keyPath, hkey⟩ : ∃ keyPath, path.keyPath? = some keyPath := by
    cases path with
    | plain segments => cases hselects
    | filtered array key value element => exact ⟨_, rfl⟩
  obtain ⟨literal, rfl⟩ := AttributePath.exists_literal_of_filterLiteral hkey hfound
  refine ⟨_, ⟨path, keyPath, literal, hpath, hkey, hfound, rfl⟩, ?_⟩
  rintro other ⟨otherPath, otherKey, otherLiteral, hotherPath, hotherKey, hotherLiteral, rfl⟩
  obtain rfl : path = otherPath := Option.some.inj (hpath.symm.trans hotherPath)
  obtain rfl : keyPath = otherKey := Option.some.inj (hkey.symm.trans hotherKey)
  obtain rfl : literal = otherLiteral :=
    Option.some.inj (Except.ok.inj (hfound.symm.trans hotherLiteral))
  rfl

/-- The leaves of the query of a list are those of the tests of the comparisons in the blocks of its tree,
and of the keys that these select by. -/
theorem exists_blocks_of_searchQuery (h : compiler.searchQuery rules = .ok query) :
    validate rules compiler.schema = .ok () ∧ ∃ tree, Tree.ofRules rules = .ok tree ∧
      tree.leaves = Rule.criteriaOf rules ∧
      ∀ leaf, leaf ∈ query.leaves ↔ ∃ block ∈ tree.blocks compiler.schema.joins,
        ∃ criteria ∈ block, compiler.IsTestAt criteria (criteria.placeIn block) leaf ∨
          compiler.IsKeyOf criteria leaf := by
  obtain ⟨hvalid, tree, htree, hleaves, hquery⟩ := exists_tree_map_of_searchQuery h
  refine ⟨hvalid, tree, htree, hleaves, fun leaf => ?_⟩
  have hpath (criteria : Criteria) := criteria.path_converted compiler.schema compiler.settings true
  have hplace {block : List Criteria} {criteria : Criteria} :=
    Criteria.placeIn_map hpath criteria block
  have hmade {block : List Criteria} {criteria : Criteria}
      (hblock : block ∈ tree.blocks compiler.schema.joins) (hcriteria : criteria ∈ block) :
      (∃ occurrence : Occurrence, SearchContext.MakesAt
        ⟨compiler.schema, compiler.settings, requiresScoring rules⟩
        (criteria.converted compiler.schema compiler.settings true) (criteria.placeIn block)
          occurrence ∧ occurrence.leaf = leaf) ↔
        compiler.IsTestAt criteria (criteria.placeIn block) leaf ∨ compiler.IsKeyOf criteria leaf := by
    have hmem := (Tree.mem_leaves_iff _).mpr ⟨block, hblock, hcriteria⟩
    rw [hleaves, Rule.mem_criteriaOf] at hmem
    exact exists_makesAt_iff _ hvalid hmem
  rw [SearchQuery.leaves, List.mem_map]
  simp only [SearchContext.mem_occurrences_blocks _ hquery,
    Tree.blocks_map (Schema.joins_mapAll hpath compiler.schema)]
  constructor
  · rintro ⟨occurrence, ⟨changed, hchanged, converted, hconverted, hmakes⟩, hleaf⟩
    obtain ⟨block, hblock, rfl⟩ := List.mem_map.mp hchanged
    obtain ⟨criteria, hcriteria, rfl⟩ := List.mem_map.mp hconverted
    rw [hplace] at hmakes
    exact ⟨block, hblock, criteria, hcriteria,
      (hmade hblock hcriteria).mp ⟨occurrence, hmakes, hleaf⟩⟩
  · rintro ⟨block, hblock, criteria, hcriteria, hfound⟩
    obtain ⟨occurrence, hmakes, hleaf⟩ := (hmade hblock hcriteria).mpr hfound
    rw [← hplace] at hmakes
    exact ⟨occurrence, ⟨_, List.mem_map_of_mem hblock, _, List.mem_map_of_mem hcriteria, hmakes⟩,
      hleaf⟩

/-- The leaves of the query of a list with canonical attributes are exactly those of the tests of its
comparisons and of the keys that these select by: each comparison has one leaf for its test, and one for
its key if it selects an element. -/
theorem mem_leaves_searchQuery (hcanonical : IsCanonical rules)
    (h : compiler.searchQuery rules = .ok query) :
    (∀ leaf, leaf ∈ query.leaves ↔ ∃ criteria, Rule.criteria criteria ∈ rules ∧
      (compiler.IsTestOf criteria leaf ∨ compiler.IsKeyOf criteria leaf)) ∧
    ∀ criteria, Rule.criteria criteria ∈ rules →
      (∃! leaf, compiler.IsTestOf criteria leaf) ∧
        (criteria.selects = true → ∃! leaf, compiler.IsKeyOf criteria leaf) := by
  obtain ⟨hvalid, tree, hquery, hconverted⟩ := exists_tree_of_searchQuery h
  have hleaves (criteria : Criteria) : criteria ∈ tree.leaves ↔ ∃ before,
      Rule.criteria before ∈ rules ∧
        before.converted compiler.schema compiler.settings true = criteria := by
    simp only [hconverted, List.mem_map, Rule.mem_criteriaOf]
  have hattributes : ∀ criteria ∈ tree.leaves,
      criteria.selects = true ∨ criteria.isPlain = true := by
    intro criteria hcriteria
    obtain ⟨before, hbefore, rfl⟩ := (hleaves criteria).mp hcriteria
    obtain ⟨path, _, hpath, _⟩ := exists_path_of_validate hvalid hbefore
    have hsame := Criteria.spelling_congr
      (before.path_converted compiler.schema compiler.settings true)
    rw [hsame.1, Criteria.isPlain_converted]
    exact Criteria.selects_or_isPlain hpath (hcanonical before hbefore)
  refine ⟨fun leaf => ?_, fun criteria hcriteria =>
    ⟨existsUnique_isTestOf hvalid hcriteria, existsUnique_isKeyOf hvalid hcriteria⟩⟩
  rw [SearchQuery.leaves, List.mem_map]
  constructor
  · rintro ⟨occurrence, hmem, rfl⟩
    obtain ⟨criteria, hcriteria, hmakes⟩ :=
      (SearchContext.mem_occurrences_tree tree hattributes hquery).mp hmem
    obtain ⟨before, hbefore, rfl⟩ := (hleaves criteria).mp hcriteria
    exact ⟨before, hbefore, (exists_makes_iff _ hvalid hbefore).mp ⟨occurrence, hmakes, rfl⟩⟩
  · rintro ⟨before, hbefore, hmade⟩
    obtain ⟨occurrence, hmakes, rfl⟩ := (exists_makes_iff _ hvalid hbefore).mpr hmade
    refine ⟨occurrence, ?_, rfl⟩
    exact (SearchContext.mem_occurrences_tree tree hattributes hquery).mpr
      ⟨_, (hleaves _).mpr ⟨before, hbefore, rfl⟩, hmakes⟩

/-- Comparisons combined below one nested field, the second of which excludes, beside a selection. The
leaf of the first one stands in the query twice. -/
theorem mem_leaves_searchQuery_editions :
    let compiler : Compiler := ⟨⟨[("editions", .nested), ("editions.isbn", .ofStrings),
      ("editions.pages", .ofNumbers), ("prices", .nested), ("prices.kind", .ofStrings),
      ("prices.amount", .ofNumbers)]⟩, {}⟩
    let printed : Criteria := ⟨"editions.isbn", .equal, .value (.text "978"), false⟩
    let long : Criteria := ⟨"editions.pages", .notEqual, .value (.integer 900), false⟩
    let listed : Criteria := ⟨"prices[kind:list].amount", .greater, .value (.integer 5), false⟩
    let rules : List Rule := [.separator .opening, .separator .opening, .criteria printed,
      .logical .and, .criteria long, .separator .closing, .logical .and, .criteria listed,
      .separator .closing]
    let isbn : SearchQuery := .term "editions.isbn.keyword" (.text "978")
    let pages : SearchQuery := .term "editions.pages" (.integer 900)
    let kind : SearchQuery := .term "prices.kind.keyword" (.text "list")
    let amount : SearchQuery := .range "prices.amount" .greater (.integer 5)
    let query : SearchQuery := .filtering [
      .filtering [.nested "editions" (.filtering [isbn]),
        .noneOf [.nested "editions" (.filtering [isbn, pages])]],
      .nested "prices" (.filtering [kind, amount])]
    IsCanonical rules ∧ compiler.searchQuery rules = .ok query ∧
      query.leaves = [isbn, isbn, pages, kind, amount] ∧
      ∀ leaf, leaf ∈ [isbn, isbn, pages, kind, amount] ↔ ∃ criteria, Rule.criteria criteria ∈ rules ∧
        (compiler.IsTestOf criteria leaf ∨ compiler.IsKeyOf criteria leaf) := by
  intro compiler printed long listed rules isbn pages kind amount query
  have hcanonical : IsCanonical rules := by
    have hthree : printed.canonicalPath = printed.path ∧ long.canonicalPath = long.path ∧
        listed.selects = true := by decide +kernel
    simp [IsCanonical, rules, hthree]
  have hquery : compiler.searchQuery rules = .ok query := by cbv
  have hleaves : query.leaves = [isbn, isbn, pages, kind, amount] := rfl
  refine ⟨hcanonical, hquery, hleaves, ?_⟩
  rw [← hleaves]
  exact (mem_leaves_searchQuery hcanonical hquery).1

/-- What a field starts with is compared as a text, also where the converted operand is none. -/
theorem operand_of_startsWith :
    let compiler : Compiler := ⟨⟨[("available", .ofBooleans)]⟩, {}⟩
    let stocked : Criteria := ⟨"available", .startsWith, .value (.boolean true), false⟩
    let rules : List Rule := [.separator .opening, .criteria stocked, .separator .closing]
    let query : SearchQuery := .filtering [.startsWith "available" "true"]
    IsCanonical rules ∧ compiler.searchQuery rules = .ok query ∧
      stocked.convert 0 compiler.schema compiler.settings true = .ok stocked ∧
      ¬∃ leaf ∈ query.leaves, ∃ field,
        leaf.comparison? = some ⟨field, .startsWith, stocked.operand⟩ := by
  intro compiler stocked rules query
  have hcanonical : IsCanonical rules := by
    have hone : stocked.canonicalPath = stocked.path := by decide +kernel
    simp [IsCanonical, rules, hone]
  have hleaves : query.leaves = [.startsWith "available" "true"] := rfl
  refine ⟨hcanonical, by cbv, by cbv, ?_⟩
  simp [hleaves, SearchQuery.comparison?, stocked]

end Compiler

end FilterRules
