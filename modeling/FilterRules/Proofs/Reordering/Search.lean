import FilterRules.Proofs.Agreement
import FilterRules.Proofs.Reordering.Rules
import FilterRules.Proofs.Search.Combination

/-!
# Search queries of reordered rules

The search query of a reordered list is the query with the lists of its combinations in another order. A
group of comparisons shares a nested field in any order or in none. Below a shared field the comparisons
that are not negated are taken first, in their order, and under a conjunction they stand in the exclusion
of every negated one, so that the exclusions are reordered inside as well.
-/

namespace FilterRules

/-- Queries with the lists of combinations in another order, at any depth. -/
inductive SearchQuery.Reordered : SearchQuery → SearchQuery → Prop
  /-- A query stays as it is. -/
  | same (query : SearchQuery) : SearchQuery.Reordered query query
  /-- The query for the elements of a list is reordered. -/
  | nested (path : String) {query other : SearchQuery} (hquery : SearchQuery.Reordered query other) :
      SearchQuery.Reordered (.nested path query) (.nested path other)
  /-- The queries of each list change their places, and are reordered themselves. -/
  | bool {must must' filter filter' should should' mustNot mustNot' : List SearchQuery}
      (hmust : ReorderedBy SearchQuery.Reordered must must')
      (hfilter : ReorderedBy SearchQuery.Reordered filter filter')
      (hshould : ReorderedBy SearchQuery.Reordered should should')
      (hmustNot : ReorderedBy SearchQuery.Reordered mustNot mustNot') :
      SearchQuery.Reordered (.bool must filter should mustNot)
        (.bool must' filter' should' mustNot')

namespace SearchQuery.Reordered

variable {query other : SearchQuery} {queries others : List SearchQuery}

/-- Inside nested fields a reordered query is still one. -/
theorem foldr_nested (fields : List String) (h : query.Reordered other) :
    (fields.foldr .nested query).Reordered (fields.foldr .nested other) := by
  induction fields with
  | nil => exact h
  | cons path fields ih => exact .nested path ih

/-- A reordered query that must not hold. -/
theorem noneOf (h : query.Reordered other) :
    (SearchQuery.noneOf [query]).Reordered (SearchQuery.noneOf [other]) :=
  .bool .nil .nil .nil (.cons [] [] h .nil)

variable {context : SearchContext}

/-- Queries in another order that are joined by a connective. -/
theorem compound (connective : Connective)
    (h : ReorderedBy SearchQuery.Reordered queries others) :
    (context.compound connective queries).Reordered (context.compound connective others) := by
  cases connective with
  | and =>
    rw [SearchContext.compound, SearchContext.compound]
    split
    · exact .bool h .nil .nil .nil
    · exact .bool .nil h .nil .nil
  | or => exact .bool .nil .nil h .nil

/-- Parts in another order that are joined by a connective; a single part is in the same place. -/
theorem joinParts (connective : Connective)
    (h : ReorderedBy SearchQuery.Reordered queries others) :
    (context.joinParts connective queries).Reordered (context.joinParts connective others) := by
  match queries, others, h, h.length_eq with
  | [], [], h, _ => exact compound connective h
  | [_], [_], h, _ => exact h.single
  | _ :: _ :: _, _ :: _ :: _, h, _ => exact compound connective h

end SearchQuery.Reordered

namespace SearchContext

variable {context : SearchContext} {connective : Connective} {root : String}
  {leaves others : List Criteria} {query : SearchQuery}

/-- Comparisons in another order have their inner leaves in another order. -/
theorem exists_innerLeaves_of_perm (h : leaves.Perm others) {queries : List SearchQuery}
    (hqueries : context.innerLeaves root leaves = .ok queries) :
    ∃ queries', context.innerLeaves root others = .ok queries' ∧ queries.Perm queries' := by
  obtain ⟨queries', hqueries', hperm⟩ :=
    List.perm_comp_forall₂ h.symm (innerLeaves_eq_ok_iff.mp hqueries)
  exact ⟨queries', innerLeaves_eq_ok_iff.mpr hqueries', hperm.symm⟩

/-- Comparisons in another order have paths too. -/
theorem exists_paths_of_perm (h : leaves.Perm others) {found : List AttributePath}
    (hfound : paths leaves = .ok found) : ∃ found', paths others = .ok found' := by
  obtain ⟨found', hfound', _⟩ := List.perm_comp_forall₂ h.symm (paths_eq_ok_iff.mp hfound)
  exact ⟨found', paths_eq_ok_iff.mpr hfound'⟩

/-- The exclusion of a comparison is reordered where the comparisons are that are not negated. -/
theorem exclusion_reordered {positive positive' : List SearchQuery}
    (h : positive.Perm positive') (excluded : SearchQuery) :
    (context.exclusion root connective positive excluded).Reordered
      (context.exclusion root connective positive' excluded) := by
  cases connective with
  | and =>
    exact .noneOf (.nested root (.compound .and (.of_perm .same (h.append_right [excluded]))))
  | or => exact .same _

/-- The parts of a query for comparisons are reordered where the comparisons are. -/
theorem parts_reordered {positive positive' excluded excluded' : List SearchQuery}
    (hpositive : positive.Perm positive') (hexcluded : excluded.Perm excluded') :
    ReorderedBy SearchQuery.Reordered (context.parts root connective positive excluded)
      (context.parts root connective positive' excluded') := by
  have hexclusions : ReorderedBy SearchQuery.Reordered
      (excluded.map (context.exclusion root connective positive))
      (excluded'.map (context.exclusion root connective positive')) := by
    refine (ReorderedBy.of_perm Eq.refl hexcluded).map ?_
    rintro found _ rfl
    exact exclusion_reordered hpositive found
  refine .append ?_ hexclusions
  rw [hpositive.isEmpty_eq]
  split
  · exact .nil
  · exact .cons [] [] (.nested root (.compound connective (.of_perm .same hpositive))) .nil

/-- Comparisons in another order below a nested field have a reordered query. -/
theorem exists_combine_of_perm (h : leaves.Perm others)
    (hquery : context.combine root connective leaves = .ok query) :
    ∃ query', context.combine root connective others = .ok query' ∧ query.Reordered query' := by
  obtain ⟨positive, excluded, hpositive, hexcluded, rfl⟩ := combine_eq_ok_iff.mp hquery
  obtain ⟨positive', hpositive', hrequired⟩ := exists_innerLeaves_of_perm (h.filter _) hpositive
  obtain ⟨excluded', hexcluded', hprohibited⟩ := exists_innerLeaves_of_perm (h.filter _) hexcluded
  refine ⟨_, combine_eq_ok_iff.mpr ⟨positive', excluded', hpositive', hexcluded', rfl⟩, ?_⟩
  exact .foldr_nested _ (.joinParts connective (parts_reordered hrequired hprohibited))

/-- Comparisons in another order share a nested field alike, and have a reordered query there. -/
theorem exists_combinedNested_of_perm (h : leaves.Perm others) {found : Option SearchQuery}
    (hfound : context.combinedNested connective leaves = .ok found) :
    ∃ found', context.combinedNested connective others = .ok found' ∧
      Option.Rel SearchQuery.Reordered found found' := by
  -- Both what is decided of the comparisons, whether one selects and which field they share, is the same
  -- in any order; only then does it matter what is made of them.
  obtain ⟨places, hplaces, hfound⟩ := Outcome.bind_eq_ok_iff.mp hfound
  obtain ⟨places', hplaces'⟩ := exists_paths_of_perm h hplaces
  have hselects : places'.any AttributePath.isFiltered = places.any AttributePath.isFiltered := by
    rw [paths_eq_ok hplaces, paths_eq_ok hplaces', h.any_eq]
  rw [combinedNested, hplaces', Outcome.ok_bind, hselects,
    ← context.schema.groupingRoot?_perm .nested (h.map Criteria.path)]
  split at hfound
  case isTrue hfiltered =>
    obtain rfl := Except.ok.inj hfound
    exact ⟨none, by rw [if_pos hfiltered]; rfl, .none⟩
  case isFalse hplain =>
    rw [if_neg hplain]
    cases hroot : context.schema.groupingRoot? .nested (leaves.map Criteria.path) with
    | none =>
      rw [hroot] at hfound
      obtain rfl := Except.ok.inj hfound
      exact ⟨none, rfl, .none⟩
    | some root =>
      rw [hroot] at hfound
      obtain ⟨query, hquery, hfound⟩ := Outcome.bind_eq_ok_iff.mp hfound
      obtain rfl := Except.ok.inj hfound
      obtain ⟨query', hquery', hreordered⟩ := exists_combine_of_perm h hquery
      exact ⟨some query', by simp only [hquery', Outcome.ok_bind, Outcome.pure_eq_ok],
        .some hreordered⟩

/-- Trees that are comparisons are so in another order. -/
theorem criteria?_reordered {children others : List Tree}
    (h : ReorderedBy Tree.Reordered children others) :
    Option.Rel List.Perm (Tree.criteria? children) (Tree.criteria? others) := by
  refine h.perm_found (fun trees leaves => ⟨Tree.eq_map_of_criteria?, ?_⟩) ?_
  · rintro rfl
    exact Tree.criteria?_map_leaf leaves
  · intro criteria tree htree
    rcases htree with htree | htree <;> cases htree <;> rfl

/-- A group with its children in another order has a reordered query as a whole, or has none. -/
theorem exists_wholeGroup_of_reordered {children others : List Tree}
    (h : ReorderedBy Tree.Reordered children others) {found : Option SearchQuery}
    (hfound : context.wholeGroup connective children = .ok found) :
    ∃ found', context.wholeGroup connective others = .ok found' ∧
      Option.Rel SearchQuery.Reordered found found' := by
  have hcriteria := criteria?_reordered h
  match children, others, h.length_eq with
  | [], [], _ =>
    obtain rfl := Except.ok.inj hfound
    exact ⟨_, rfl, .some (.same _)⟩
  | [_], [_], _ =>
    obtain rfl := Except.ok.inj hfound
    exact ⟨_, rfl, .none⟩
  | first :: second :: rest, first' :: second' :: rest', _ =>
    simp only [wholeGroup] at hfound ⊢
    generalize Tree.criteria? (first :: second :: rest) = leaves? at hcriteria hfound
    generalize Tree.criteria? (first' :: second' :: rest') = leaves?' at hcriteria ⊢
    cases hcriteria with
    | none =>
      obtain rfl := Except.ok.inj hfound
      exact ⟨_, rfl, .none⟩
    | some hperm => exact exists_combinedNested_of_perm hperm hfound

/-- A reordered tree has a reordered query. -/
theorem exists_query_of_reordered {tree other : Tree} (h : tree.Reordered other)
    (hquery : context.query tree = .ok query) :
    ∃ query', context.query other = .ok query' ∧ query.Reordered query' := by
  refine Tree.Reordered.induct ?leaf ?group h query hquery
  case leaf => exact fun criteria query hquery => ⟨query, hquery, .same query⟩
  case group =>
    intro connective children others hchildren hqueries query hquery
    rw [SearchContext.query] at hquery ⊢
    obtain ⟨whole, hwhole, hquery⟩ := Outcome.bind_eq_ok_iff.mp hquery
    obtain ⟨whole', hwhole', hsame⟩ := exists_wholeGroup_of_reordered hchildren hwhole
    rw [hwhole', Outcome.ok_bind]
    cases hsame with
    | some hfound =>
      obtain rfl := Except.ok.inj hquery
      exact ⟨_, rfl, hfound⟩
    | none =>
      obtain ⟨parts, hparts, hquery⟩ := Outcome.bind_eq_ok_iff.mp hquery
      obtain rfl := Except.ok.inj hquery
      obtain ⟨parts', hparts', hreordered⟩ :=
        hqueries.exists_results (fun _ _ htree => htree) (queries_eq_ok_iff.mp hparts)
      simp only [queries_eq_ok_iff.mpr hparts', Outcome.ok_bind, Outcome.pure_eq_ok]
      exact ⟨_, rfl, .compound connective hreordered⟩

end SearchContext

namespace Compiler

variable {compiler : Compiler} {item other : Item}

/-- A reordered list has a reordered search query. -/
theorem exists_searchQuery_of_reordered {query : SearchQuery} (h : item.Reordered other)
    (hquery : compiler.searchQuery item.rules = .ok query) :
    ∃ query', compiler.searchQuery other.rules = .ok query' ∧ query.Reordered query' := by
  have hvalid := validate_of_searchQuery ⟨query, hquery⟩
  have hgroup : item.isGroup :=
    (Item.read_of_checkOrder (checkOrder_of_validate hvalid)).1 item (by simp)
  have hconverted := h.map fun criteria =>
    criteria.converted compiler.schema compiler.settings true
  rw [searchQuery_of_validate hvalid, convertedRules, ← Item.rules_map] at hquery
  rw [searchQuery_of_validate ((h.validate_iff _).mp hvalid), convertedRules, ← Item.rules_map,
    ← hconverted.requiresScoring_eq]
  obtain ⟨tree, htree, hquery⟩ := Outcome.bind_eq_ok_iff.mp hquery
  obtain ⟨tree', htree', hreordered⟩ := hconverted.exists_ofRules (by simpa using hgroup) htree
  rw [htree', Outcome.ok_bind]
  exact SearchContext.exists_query_of_reordered hreordered hquery

end Compiler

end FilterRules
