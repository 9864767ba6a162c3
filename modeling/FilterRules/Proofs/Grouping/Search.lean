import FilterRules.Proofs.Grouping.Document
import FilterRules.Proofs.Search.Ranking

/-!
# Which comparisons both queries group

The leaves inside one nested field form a block of a search query. In the query of plain comparisons that
are not negated the blocks are those of the tree in which a group counts when its items are comparisons
that share a nested field. A document query goes further, since it looks through groups around a single
comparison. So where all lists are nested, two comparisons are meant for one element in the search exactly
when they are in the document query and stand side by side in a group of comparisons only. Both queries
group the same comparisons when no group is around a single one.
-/

namespace FilterRules

mutual

/-- The blocks of a query: the leaves inside each nested field, and all other ones. -/
def SearchQuery.blocks : SearchQuery → List (List SearchQuery)
  | .matchAll => []
  | .nested _ query => [query.occurrences.map Occurrence.leaf]
  | .bool must filter should mustNot =>
    SearchQuery.blocksOf must ++ SearchQuery.blocksOf filter ++ SearchQuery.blocksOf should ++
      SearchQuery.blocksOf mustNot
  | leaf => [[leaf]]

/-- The blocks of some queries. -/
def SearchQuery.blocksOf : List SearchQuery → List (List SearchQuery)
  | [] => []
  | query :: queries => query.blocks ++ SearchQuery.blocksOf queries

end

/-- The blocks of some queries are those of each of them. -/
theorem SearchQuery.blocksOf_eq_flatMap (queries : List SearchQuery) :
    SearchQuery.blocksOf queries = queries.flatMap SearchQuery.blocks := by
  induction queries with
  | nil => rfl
  | cons query queries ih => rw [SearchQuery.blocksOf, ih, List.flatMap_cons]

/-- A query that is a single block is so inside nested fields. -/
theorem SearchQuery.blocks_foldr_nested {query : SearchQuery}
    (h : query.blocks = [query.occurrences.map Occurrence.leaf]) (fields : List String) :
    (fields.foldr .nested query).blocks = [query.occurrences.map Occurrence.leaf] := by
  cases fields with
  | nil => exact h
  | cons path fields =>
    rw [List.foldr_cons, blocks, occurrences_foldr_nested, List.map_map]
    rfl

/-- Whether all of some trees are comparisons. -/
def Tree.areCriteria (children : List Tree) : Bool := (Tree.criteria? children).isSome

/-- Trees that are comparisons have one each. -/
theorem Tree.areLone_of_areCriteria {children : List Tree}
    (h : Tree.areCriteria children = true) : Tree.areLone children = true := by
  obtain ⟨leaves, hleaves⟩ := Option.isSome_iff_exists.mp h
  rw [Tree.eq_map_of_criteria? hleaves]
  simp [areLone, Tree.leaves]

/-- Trees of wide groups that have one comparison at most each are comparisons. -/
theorem Tree.areCriteria_of_areWide {children : List Tree} (hwide : Tree.areWide children = true)
    (hlone : Tree.areLone children = true) : Tree.areCriteria children = true := by
  induction children with
  | nil => rfl
  | cons child children ih =>
    obtain ⟨hone, hrest⟩ := Bool.and_eq_true_iff.mp hwide
    obtain ⟨hfew, hlone⟩ : child.leaves.length ≤ 1 ∧ Tree.areLone children = true := by
      simpa [Tree.areLone] using hlone
    cases child with
    | leaf criteria =>
      obtain ⟨leaves, hleaves⟩ := Option.isSome_iff_exists.mp (ih hrest hlone)
      simp [Tree.areCriteria, Tree.criteria?, hleaves]
    | group connective inner =>
      have hmany : 2 ≤ (Tree.leavesOf inner).length :=
        of_decide_eq_true (Bool.and_eq_true_iff.mp hone).1
      rw [Tree.leaves] at hfew
      omega

/-- Whether a group is a block of a search query: when its items are comparisons that share a nested
field. -/
def Schema.joinsCriteria (schema : Schema) (children : List Tree) : Bool :=
  Tree.areCriteria children &&
    (schema.groupingRoot? .nested ((Tree.leavesOf children).map Criteria.path)).isSome

/-- Where all lists are nested, the blocks of a search query are those of a document query that consist
of comparisons side by side. -/
theorem Schema.joinsCriteria_eq {schema : Schema} (h : schema.ListsAreNested) :
    schema.joinsCriteria = fun children => schema.joinsLone children && Tree.areCriteria children := by
  funext children
  rw [joinsCriteria, joinsLone, h.groupingRoot?_eq]
  cases hcriteria : Tree.areCriteria children with
  | true => simp [Tree.areLone_of_areCriteria hcriteria]
  | false => simp

/-- The same groups are blocks with other comparisons on the same attributes. -/
theorem Schema.joinsCriteria_mapAll {change : Criteria → Criteria}
    (hpath : ∀ criteria, (change criteria).path = criteria.path) (schema : Schema)
    (children : List Tree) :
    schema.joinsCriteria (Tree.mapAll change children) = schema.joinsCriteria children := by
  rw [joinsCriteria, joinsCriteria, Tree.areCriteria, Tree.areCriteria,
    Tree.criteria?_mapAll, Tree.leavesOf_mapAll, List.map_map, Option.isSome_map]
  simp only [Function.comp_def, hpath]

namespace SearchContext

open SearchQuery (blocks blocks_foldr_nested occurrences_foldr_nested)

variable {context : SearchContext} {criteria : Criteria} {leaves : List Criteria}
  {connective : Connective} {root : String} {query : SearchQuery}

/-- A leaf is a block of its own. -/
theorem blocks_leaf {path : String} {leaf : SearchQuery}
    (h : context.leaf criteria path = .ok leaf) : leaf.blocks = [[leaf]] := by
  have hleaf := isLeaf_leaf h
  cases leaf with
  | matchAll | nested | bool => cases hleaf
  | _ => rfl

/-- The blocks of joined queries are those of each of them. -/
theorem blocks_compound (connective : Connective) (queries : List SearchQuery) :
    (context.compound connective queries).blocks = queries.flatMap blocks := by
  cases connective with
  | and =>
    rw [compound]
    split <;> simp [blocks, SearchQuery.blocksOf_eq_flatMap]
  | or => simp [compound, blocks, SearchQuery.blocksOf_eq_flatMap]

/-- A plain comparison on its own that is not negated is a block of its own. -/
theorem blocks_criteria (hplain : criteria.isPlain = true)
    (hasserted : criteria.relationship.isNegated = false)
    (h : context.criteria criteria = .ok query) :
    ∃ leaf, context.leaf criteria criteria.path = .ok leaf ∧ query.blocks = [[leaf]] := by
  rw [criteria_of_isPlain hplain, hasserted] at h
  obtain ⟨leaf, hleaf, rfl⟩ := Outcome.map_eq_ok_iff.mp h
  have hone : leaf.blocks = [leaf.occurrences.map Occurrence.leaf] := by
    rw [blocks_leaf hleaf, occurrences_leaf hleaf]
    rfl
  refine ⟨leaf, hleaf, ?_⟩
  rw [wrapNested]
  simp [blocks_foldr_nested hone, occurrences_leaf hleaf]

/-- Comparisons below a nested field that are not negated are one block. -/
theorem blocks_combine (hne : leaves ≠ [])
    (hasserted : ∀ criteria ∈ leaves, criteria.relationship.isNegated = false)
    (h : context.combine root connective leaves = .ok query) :
    ∃ block, query.blocks = [block] ∧
      List.Forall₂ (fun criteria leaf => context.leaf criteria criteria.path = .ok leaf) leaves
        block := by
  obtain ⟨positive, excluded, hpositive, hexcluded, rfl⟩ := combine_eq_ok_iff.mp h
  rw [List.filter_eq_self.mpr (by simpa using hasserted)] at hpositive
  rw [List.filter_eq_nil_iff.mpr (by simpa using hasserted)] at hexcluded
  obtain rfl : [] = excluded := Except.ok.inj hexcluded
  have hleaves : List.Forall₂
      (fun criteria leaf => context.leaf criteria criteria.path = .ok leaf) leaves
      (positive.flatMap fun query => query.occurrences.map Occurrence.leaf) := by
    refine forall₂_innerLeaves (fun criteria path leaf fields hleaf => ?_) hpositive
    rw [occurrences_foldr_nested, occurrences_leaf hleaf]
    rfl
  have hsome : positive ≠ [] := by
    rintro rfl
    exact hne (List.forall₂_nil_right_iff.mp hleaves)
  have hparts : context.parts root connective positive [] =
      [.nested root (context.compound connective positive)] := by
    simp [parts, hsome]
  refine ⟨_, ?_, hleaves⟩
  rw [wrapNested, hparts, joinParts, blocks_foldr_nested]
  · simp [SearchQuery.occurrences, occurrences_compound, List.map_flatMap, Function.comp_def,
      Occurrence.inside]
  · simp [blocks, SearchQuery.occurrences, Function.comp_def, Occurrence.inside]

mutual

/-- The blocks of the query of a tree of plain comparisons that are not negated are the groups of
comparisons that share a nested field, and all other comparisons. -/
theorem blocks_query : (tree : Tree) →
    (∀ criteria ∈ tree.leaves, criteria.isPlain = true ∧
      criteria.relationship.isNegated = false) → {query : SearchQuery} →
    context.query tree = .ok query →
    List.Forall₂ (List.Forall₂ fun criteria leaf => context.leaf criteria criteria.path = .ok leaf)
      (tree.blocks context.schema.joinsCriteria) query.blocks
  | .leaf criteria, hleaves, query, h => by
    rw [SearchContext.query] at h
    obtain ⟨hplain, hasserted⟩ := hleaves criteria (by simp [Tree.leaves])
    obtain ⟨leaf, hleaf, hblocks⟩ := blocks_criteria hplain hasserted h
    rw [hblocks]
    exact .cons (.cons hleaf .nil) .nil
  | .group connective children, hleaves, query, h => by
    rw [Tree.leaves] at hleaves
    rw [Tree.blocks]
    split
    case isTrue hjoins =>
      obtain ⟨hcriteria, hroot⟩ := Bool.and_eq_true_iff.mp hjoins
      obtain ⟨leaves, hfound⟩ := Option.isSome_iff_exists.mp hcriteria
      obtain ⟨root, hroot⟩ := Option.isSome_iff_exists.mp hroot
      rw [Tree.leavesOf_eq_of_criteria? hfound] at hleaves hroot ⊢
      rw [Tree.eq_map_of_criteria? hfound,
        query_eq_combine (fun criteria hmem => (hleaves criteria hmem).1) hroot] at h
      have hne : leaves ≠ [] := by
        rintro rfl
        simp [Schema.groupingRoot?] at hroot
      obtain ⟨block, hblock, hall⟩ :=
        blocks_combine hne (fun criteria hmem => (hleaves criteria hmem).2) h
      rw [hblock]
      exact .cons hall .nil
    case isFalse hapart =>
      rcases query_group_cases h with ⟨rfl, rfl⟩ | ⟨leaves, root, hfound, _, hroot, _⟩ |
        ⟨_, queries, hqueries, rfl⟩
      · exact .nil
      · -- Comparisons side by side that share a nested field are a block.
        refine absurd ?_ hapart
        rw [Schema.joinsCriteria, Tree.areCriteria, hfound, Tree.leavesOf_eq_of_criteria? hfound,
          hroot]
        rfl
      · rw [blocks_compound]
        exact blocks_queries children hleaves hqueries

/-- The blocks of the queries of such trees are those of the trees. -/
theorem blocks_queries : (trees : List Tree) →
    (∀ criteria ∈ Tree.leavesOf trees, criteria.isPlain = true ∧
      criteria.relationship.isNegated = false) → {queries : List SearchQuery} →
    context.queries trees = .ok queries →
    List.Forall₂ (List.Forall₂ fun criteria leaf => context.leaf criteria criteria.path = .ok leaf)
      (Tree.blocksOf context.schema.joinsCriteria trees) (queries.flatMap blocks)
  | [], _, queries, h => by
    obtain rfl : [] = queries := Except.ok.inj h
    exact .nil
  | tree :: trees, hleaves, queries, h => by
    obtain ⟨query, others, hquery, hothers, rfl⟩ := queries_cons h
    obtain ⟨hfirst, hrest⟩ := List.forall_mem_append.mp hleaves
    rw [Tree.blocksOf, List.flatMap_cons]
    exact List.rel_append (blocks_query tree hfirst hquery) (blocks_queries trees hrest hothers)

end

end SearchContext

namespace Compiler

variable {compiler : Compiler} {rules : List Rule} {tree : Tree} {search : SearchQuery}

/-- The blocks of a search query are those of the tree of the list. -/
theorem blocks_searchQuery
    (hplain : ∀ criteria, Rule.criteria criteria ∈ rules → criteria.isPlain = true)
    (hasserted : ∀ criteria, Rule.criteria criteria ∈ rules →
      criteria.relationship.isNegated = false)
    (htree : Tree.ofRules rules = .ok tree) (h : compiler.searchQuery rules = .ok search) :
    List.Forall₂ (List.Forall₂ compiler.IsLeafOf) (tree.blocks compiler.schema.joinsCriteria)
      search.blocks := by
  obtain ⟨⟨⟩, hvalid, _⟩ := Outcome.bind_eq_ok_iff.mp h
  have hleaves : ∀ criteria ∈ (tree.map fun criteria =>
      criteria.converted compiler.schema compiler.settings true).leaves,
      criteria.isPlain = true ∧ criteria.relationship.isNegated = false := by
    refine Tree.forall_mem_leaves_map (checkOrder_of_validate hvalid) htree
      fun criteria hcriteria => ?_
    rw [Criteria.isPlain_converted, Criteria.relationship_converted]
    exact ⟨hplain criteria hcriteria, hasserted criteria hcriteria⟩
  rw [searchQuery_of_validate hvalid, Tree.ofRules_convertedRules, htree] at h
  have hblocks := SearchContext.blocks_query _ hleaves h
  rw [Tree.forall₂_blocks_map (compiler.schema.joinsCriteria_mapAll fun criteria =>
    criteria.path_converted _ _ _)] at hblocks
  exact hblocks.imp fun _ _ hblock => hblock.imp fun _ _ => Or.inl

/-- Where all lists are nested, both queries of a list of plain comparisons that are not negated have
its comparisons in order. Two of them are meant for one element in the search exactly when they are in
the document query and they are items of one group that has only comparisons for items. So both queries
group the same comparisons when each group of the list has several. -/
theorem together_blocks_iff {document : DocumentQuery} (hlists : compiler.schema.ListsAreNested)
    (hplain : ∀ criteria, Rule.criteria criteria ∈ rules → criteria.isPlain = true)
    (hasserted : ∀ criteria, Rule.criteria criteria ∈ rules →
      criteria.relationship.isNegated = false)
    (hdocument : compiler.documentQuery rules = .ok document)
    (hsearch : compiler.searchQuery rules = .ok search) :
    List.Forall₂ compiler.IsClauseOf (Rule.criteriaOf rules) document.blocks.flatten ∧
      List.Forall₂ compiler.IsLeafOf (Rule.criteriaOf rules) search.blocks.flatten ∧
      ∃ tree, Tree.ofRules rules = .ok tree ∧ (∀ i j, i ≠ j →
        (together search.blocks i j = true ↔ together document.blocks i j = true ∧
          together (tree.blocks Tree.areCriteria) i j = true)) ∧
        (tree.isWide = true → ∀ i j, together search.blocks i j = together document.blocks i j) := by
  obtain ⟨⟨⟩, hvalid, _⟩ := Outcome.bind_eq_ok_iff.mp hsearch
  have horder := checkOrder_of_validate hvalid
  have hemitted := hsearch
  rw [searchQuery_of_validate hvalid, Tree.ofRules_convertedRules] at hemitted
  obtain ⟨_, hconverted, _⟩ := Outcome.bind_eq_ok_iff.mp hemitted
  obtain ⟨tree, htree, rfl⟩ := Outcome.map_eq_ok_iff.mp hconverted
  have hclauses := blocks_documentQuery hplain htree hdocument
  have hleaves := blocks_searchQuery hplain hasserted htree hsearch
  have hlone (children : List Tree) (hjoins : compiler.schema.joinsLone children = true) :
      Tree.areLone children = true :=
    (Bool.and_eq_true_iff.mp hjoins).1
  refine ⟨?_, ?_, tree, htree, fun i j hne => ?_, fun hwide i j => ?_⟩
  · have hall := List.rel_flatten hclauses
    rwa [Tree.flatten_blocks, Tree.leaves_of_ofRules horder htree] at hall
  · have hall := List.rel_flatten hleaves
    rwa [Tree.flatten_blocks, Tree.leaves_of_ofRules horder htree] at hall
  · rw [← together_congr hclauses, ← together_congr hleaves, Schema.joinsCriteria_eq hlists,
      Tree.together_blocks_and hlone (fun children => Tree.areLone_of_areCriteria) tree hne,
      Bool.and_eq_true]
  · rw [← together_congr hclauses, ← together_congr hleaves, Schema.joinsCriteria_eq hlists]
    refine congrArg (together · i j) (Tree.blocks_congr (fun children hinner => ?_) tree hwide)
    cases hjoins : compiler.schema.joinsLone children with
    | false => rfl
    | true => exact Tree.areCriteria_of_areWide hinner (hlone children hjoins)

/-- Two groups over one list, the second of which has a group around one of its comparisons. The document
query has a condition on an element for either of them, the search query for the first one only. -/
theorem together_blocks_iff_editions :
    let compiler : Compiler := ⟨⟨[("editions", .nested), ("editions.isbn", .ofStrings),
      ("editions.kind", .ofStrings)]⟩, {}⟩
    let comparing (path text : String) : Criteria := ⟨path, .equal, .value (.text text), false⟩
    let rules : List Rule := [.separator .opening,
      .separator .opening, .criteria (comparing "editions.isbn" "978"), .logical .and,
      .criteria (comparing "editions.kind" "print"), .separator .closing, .logical .or,
      .separator .opening, .separator .opening, .criteria (comparing "editions.isbn" "979"),
      .separator .closing, .logical .and, .criteria (comparing "editions.kind" "ebook"),
      .separator .closing, .separator .closing]
    let compared (path text : String) : DocumentQuery :=
      .fields [.mk path (.compare .equal (.text text))]
    let element (isbn kind : String) : DocumentQuery :=
      .fields [.mk "editions" (.elementMatch (.and [compared "isbn" isbn, compared "kind" kind]))]
    let document : DocumentQuery := .or [element "978" "print", element "979" "ebook"]
    let isbn (text : String) : SearchQuery := .term "editions.isbn.keyword" (.text text)
    let kind (text : String) : SearchQuery := .term "editions.kind.keyword" (.text text)
    let search : SearchQuery := .bool [] []
      [.nested "editions" (.filtering [isbn "978", kind "print"]),
        .filtering [.filtering [.nested "editions" (isbn "979")], .nested "editions" (kind "ebook")]] []
    compiler.schema.ListsAreNested ∧
      (∀ criteria, Rule.criteria criteria ∈ rules → criteria.isPlain = true) ∧
      (∀ criteria, Rule.criteria criteria ∈ rules → criteria.relationship.isNegated = false) ∧
      compiler.documentQuery rules = .ok document ∧ compiler.searchQuery rules = .ok search ∧
      (together document.blocks 0 1 = true ∧ together search.blocks 0 1 = true) ∧
      (together document.blocks 2 3 = true ∧ together search.blocks 2 3 = false) ∧
      ∃ tree, Tree.ofRules rules = .ok tree ∧ (∀ i j, i ≠ j →
        (together search.blocks i j = true ↔ together document.blocks i j = true ∧
          together (tree.blocks Tree.areCriteria) i j = true)) ∧
        (tree.isWide = true → ∀ i j, together search.blocks i j = together document.blocks i j) := by
  intro compiler comparing rules compared element document isbn kind search
  have hlists : compiler.schema.ListsAreNested :=
    .of_entries (by decide +kernel)
  have hplain : ∀ criteria, Rule.criteria criteria ∈ rules → criteria.isPlain = true := by
    have hfour : (Rule.criteriaOf rules).all Criteria.isPlain = true := by decide +kernel
    exact fun criteria hmem => List.all_eq_true.mp hfour criteria (Rule.mem_criteriaOf.mpr hmem)
  have hasserted : ∀ criteria, Rule.criteria criteria ∈ rules →
      criteria.relationship.isNegated = false := by
    simp [rules, comparing, Relationship.isNegated]
  have hdocument : compiler.documentQuery rules = .ok document := by cbv
  have hsearch : compiler.searchQuery rules = .ok search := by cbv
  exact ⟨hlists, hplain, hasserted, hdocument, hsearch, by decide +kernel, by decide +kernel,
    (together_blocks_iff hlists hplain hasserted hdocument hsearch).2.2⟩

/-- A group around a single comparison of a list stands beside another comparison of the list. The
document query asks for one element that satisfies both, and the search query does not. -/
theorem together_blocks_around_single :
    let compiler : Compiler := ⟨⟨[("prices", .nested), ("prices.price", .ofNumbers),
      ("prices.currency", .ofStrings)]⟩, {}⟩
    let priced : Criteria := ⟨"prices.price", .equal, .value (.integer 100), false⟩
    let paid : Criteria := ⟨"prices.currency", .equal, .value (.text "EUR"), false⟩
    let rules : List Rule := [.separator .opening, .separator .opening, .criteria priced,
      .separator .closing, .logical .and, .criteria paid, .separator .closing]
    let document : DocumentQuery := .fields [.mk "prices" (.elementMatch (.and
      [.fields [.mk "price" (.compare .equal (.integer 100))],
        .fields [.mk "currency" (.compare .equal (.text "EUR"))]]))]
    let search : SearchQuery := .filtering
      [.filtering [.nested "prices" (.term "prices.price" (.integer 100))],
        .nested "prices" (.term "prices.currency.keyword" (.text "EUR"))]
    compiler.schema.ListsAreNested ∧
      (∀ criteria ∈ Rule.criteriaOf rules, criteria.isPlain = true) ∧
      (∀ criteria ∈ Rule.criteriaOf rules, criteria.relationship.isNegated = false) ∧
      compiler.documentQuery rules = .ok document ∧ compiler.searchQuery rules = .ok search ∧
      together document.blocks 0 1 = true ∧ together search.blocks 0 1 = false := by
  exact ⟨.of_entries (by decide +kernel), by decide +kernel, by decide +kernel, by cbv, by cbv,
    by decide +kernel, by decide +kernel⟩

end Compiler

end FilterRules
