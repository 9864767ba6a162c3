import FilterRules.Proofs.Attribute
import FilterRules.Proofs.Search.Scope

/-!
# The scope of a selection

A comparison that selects an element makes two leaves: the test of the key and the test of the field. The
query puts both of them into the nested fields above the field. Those are the right ones for the field;
the key wants the nested fields above itself, which end at the list that the selection is made from. The
two agree exactly when no nested field lies between that list and the field. Where one does, the key is
looked for among the elements of the inner field, which do not have it, and the query matches nothing.
-/

namespace FilterRules

namespace AttributePath

variable {path : AttributePath} {keyPath : String}

/-- A selection has a literal to compare its key with. -/
theorem exists_literal_of_filterLiteral {schema : Schema} {found : Option Literal}
    (hkey : path.keyPath? = some keyPath) (h : path.filterLiteral schema = .ok found) :
    ∃ literal, found = some literal := by
  cases path with
  | plain segments => simp [keyPath?] at hkey
  | filtered names key value element =>
    rw [filterLiteral] at h
    split at h
    · exact ⟨_, (Except.ok.inj h).symm⟩
    · obtain ⟨literal, _, rfl⟩ := Outcome.map_eq_ok_iff.mp h
      exact ⟨literal, rfl⟩

end AttributePath

namespace SearchContext

variable {context : SearchContext} {criteria : Criteria} {path : AttributePath}
  {array keyPath : String} {rule : Nat}

/-- A valid comparison that selects an element has a query with two leaves, the test of the key and its
own, both in the nested fields above the field. -/
theorem exists_query_of_selection (hcheck : criteria.check rule context.schema = .ok ())
    (hpath : AttributePath.parse? criteria.path = some path) (hkey : path.keyPath? = some keyPath) :
    ∃ query literal leaf, context.query (.leaf criteria) = .ok query ∧
      path.emittedFilter context.schema = .ok (some literal) ∧
      context.leaf criteria path.schemaPath = .ok leaf ∧
      query.occurrences =
        [⟨context.schema.nestedAncestors path.schemaPath, context.keyTerm keyPath literal⟩,
          ⟨context.schema.nestedAncestors path.schemaPath, leaf⟩] := by
  obtain ⟨hshape, _, hconvert⟩ := (Criteria.check_eq_ok_iff {} false).mp hcheck
  obtain ⟨other, _, found, _, hother, _, hfound, _, _⟩ := Criteria.convert_eq_ok_iff.mp hconvert
  obtain rfl : path = other := Option.some.inj (hpath.symm.trans hother)
  obtain ⟨literal, rfl⟩ := AttributePath.exists_literal_of_filterLiteral hkey hfound
  obtain ⟨leaf, hleaf⟩ := exists_leaf context hshape path.schemaPath
  have hliteral : path.emittedFilter context.schema = .ok (some literal) := by
    rw [AttributePath.emittedFilter, hfound]
  have hterm : context.elementFilter path = .ok (some (context.keyTerm keyPath literal)) := by
    rw [elementFilter, hliteral, Outcome.ok_bind, hkey]
    rfl
  rw [SearchContext.query, SearchContext.criteria, AttributePath.parseAt_eq_ok_iff.mpr hpath,
    Outcome.ok_bind, hleaf, Outcome.ok_bind, hterm, Outcome.ok_bind]
  refine ⟨_, literal, leaf, rfl, hliteral, rfl, ?_⟩
  rw [wrapNested, SearchQuery.occurrences_foldr_nested]
  cases criteria.relationship.isNegated <;>
    simp [SearchQuery.filtering, SearchQuery.occurrences, SearchQuery.occurrencesOf,
      occurrences_leaf hleaf, keyTerm, Occurrence.inside]

/-- A valid comparison on a field of a selected element of a nested field has a query with two leaves,
the test of the key and its own. Both stand in the nested fields above the field: those above the key,
and then those between the list and the field. So the test of the key stands in the nested fields above
the key exactly when there are none between. -/
theorem occurrences_query_selection (hcheck : criteria.check rule context.schema = .ok ())
    (hpath : AttributePath.parse? criteria.path = some path)
    (harray : path.arrayPath? = some array) (hkey : path.keyPath? = some keyPath)
    (hnested : context.schema.isNestedAt array = true) :
    ∃ query literal leaf, context.query (.leaf criteria) = .ok query ∧
      path.emittedFilter context.schema = .ok (some literal) ∧
      context.leaf criteria path.schemaPath = .ok leaf ∧
      query.occurrences =
        [⟨context.schema.nestedAncestors keyPath ++
            context.schema.nestedBetween array path.schemaPath, context.keyTerm keyPath literal⟩,
          ⟨context.schema.nestedAncestors path.schemaPath, leaf⟩] ∧
      (context.schema.nestedBetween array path.schemaPath = [] ↔
        ∀ place ∈ Dotted.ancestors path.schemaPath, Dotted.isBelow place array = true →
          context.schema.isNestedAt place = false) := by
  obtain ⟨query, literal, leaf, hquery, hliteral, hleaf, hleaves⟩ :=
    exists_query_of_selection hcheck hpath hkey
  refine ⟨query, literal, leaf, hquery, hliteral, hleaf, ?_, Schema.nestedBetween_eq_nil_iff⟩
  obtain ⟨key, element, helement, hkeySegments, hfieldSegments⟩ :=
    AttributePath.segments_of_selection (AttributePath.isProper_of_parse? hpath) harray hkey
  have hkeyScope := Schema.nestedAncestors_of_segments (by simp) hkeySegments hnested
  have hfieldScope := Schema.nestedAncestors_of_segments helement hfieldSegments hnested
  rw [Schema.nestedBetween_eq_nil hkeySegments] at hkeyScope
  rw [hleaves, hkeyScope]
  nth_rewrite 1 [hfieldScope]
  simp

/-- A negated comparison on a field of the selected element itself. -/
theorem occurrences_query_selection_shelf :
    let context : SearchContext := ⟨⟨[("shop.shelves", .nested), ("shop.shelves.kind", .ofStrings),
      ("shop.shelves.label.text", .ofStrings)]⟩, {}, false⟩
    let criteria : Criteria :=
      ⟨"shop.shelves[kind:open].label.text", .notEqual, .value (.text "new"), true⟩
    let path : AttributePath := .filtered ["shop", "shelves"] "kind" "open" ["label", "text"]
    criteria.check 0 context.schema = .ok () ∧ AttributePath.parse? criteria.path = some path ∧
      path.arrayPath? = some "shop.shelves" ∧ path.keyPath? = some "shop.shelves.kind" ∧
      context.schema.isNestedAt "shop.shelves" = true ∧
      ∃ query literal leaf, context.query (.leaf criteria) = .ok query ∧
        path.emittedFilter context.schema = .ok (some literal) ∧
        context.leaf criteria path.schemaPath = .ok leaf ∧
        query.occurrences = [⟨["shop.shelves"], context.keyTerm "shop.shelves.kind" literal⟩,
          ⟨["shop.shelves"], leaf⟩] := by
  intro context criteria path
  have hcheck : criteria.check 0 context.schema = .ok () := by decide +kernel
  have hpath : AttributePath.parse? criteria.path = some path := by decide +kernel
  have harray : path.arrayPath? = some "shop.shelves" := by decide +kernel
  have hkey : path.keyPath? = some "shop.shelves.kind" := by decide +kernel
  have hnested : context.schema.isNestedAt "shop.shelves" = true := by decide +kernel
  have hkeyScope : context.schema.nestedAncestors "shop.shelves.kind" = ["shop.shelves"] := by
    decide +kernel
  have hfieldScope : context.schema.nestedAncestors path.schemaPath = ["shop.shelves"] := by
    decide +kernel
  obtain ⟨query, literal, leaf, hquery, hliteral, hleaf, hleaves, hbetween⟩ :=
    occurrences_query_selection hcheck hpath harray hkey hnested
  rw [hbetween.mpr (by decide +kernel), hkeyScope, hfieldScope] at hleaves
  exact ⟨hcheck, hpath, harray, hkey, hnested, query, literal, leaf, hquery, hliteral, hleaf, hleaves⟩

/-- With a nested field between the list and the field, the test of the key stands in it, where no
element has the key. -/
theorem selection_out_of_scope :
    let context : SearchContext := ⟨⟨[("editions", .nested), ("editions.contributors", .nested),
      ("editions.contributors.name", .ofStrings), ("editions.kind", .ofStrings)]⟩, {}, false⟩
    let criteria : Criteria :=
      ⟨"editions[kind:ebook].contributors.name", .equal, .value (.text "Ada"), true⟩
    let kind : SearchQuery := .term "editions.kind.keyword" (.text "ebook")
    let name : SearchQuery := .term "editions.contributors.name.keyword" (.text "Ada")
    let query : SearchQuery := .nested "editions" (.nested "editions.contributors"
      (.filtering [kind, name]))
    criteria.check 0 context.schema = .ok () ∧ context.query (.leaf criteria) = .ok query ∧
      context.schema.nestedAncestors "editions.kind" = ["editions"] ∧
      ⟨["editions", "editions.contributors"], kind⟩ ∈ query.occurrences ∧
      ⟨["editions"], kind⟩ ∉ query.occurrences := by
  intro context criteria kind name query
  have hleaves : query.occurrences = [⟨["editions", "editions.contributors"], kind⟩,
      ⟨["editions", "editions.contributors"], name⟩] := rfl
  refine ⟨by decide +kernel, by cbv, by decide +kernel, ?_, ?_⟩
  · simp [hleaves]
  · simp [hleaves]

end SearchContext

end FilterRules
