import FilterRules.Proofs.Attribute.Grammar
import FilterRules.Proofs.Search.Leaves

/-!
# The field that identifies a document

The identifying field has no exact form. The test of a key compares the field itself whenever the key is
that field. The leaf of a comparison does so when the attribute is written as the name of the field: it
is the attribute as it stands that is looked at, so that a selection in front of the field, or a blank in
the attribute, brings the suffix back where the field is declared as a plain string.
-/

namespace FilterRules

/-- The field that a query compares, if it is a leaf. -/
def SearchQuery.field? (query : SearchQuery) : Option String :=
  query.comparison?.map Comparison.field

/-- An attribute that selects nothing is at least as long as the path of its field. -/
theorem Criteria.length_fieldPath_le {criteria : Criteria} (h : criteria.selects = false) :
    criteria.fieldPath.toList.length ≤ criteria.path.toList.length := by
  rw [fieldPath]
  cases hpath : AttributePath.parse? criteria.path with
  | none => exact Nat.le_refl _
  | some path =>
    cases path with
    | plain segments => exact AttributePath.length_schemaPath_le hpath
    | filtered array key value element => simp [selects, hpath, AttributePath.isFiltered] at h

/-- A field with a suffix is at least as long as the field, and as long only without a suffix. -/
theorem eq_empty_of_append_eq {field suffix name : String} (h : field ++ suffix = name)
    (hlength : name.toList.length ≤ field.toList.length) : suffix = "" ∧ field = name := by
  have hnil : suffix.toList = [] := by
    rw [← h, String.toList_append, List.length_append] at hlength
    exact List.eq_nil_of_length_eq_zero (by omega)
  obtain rfl := String.toList_eq_nil_iff.mp hnil
  exact ⟨rfl, by simpa using h⟩

namespace Criteria

variable {criteria : Criteria} {declared : AttributeType} {settings : Settings} {place : String}

/-- The leaf of a comparison of the identifying field is on that field exactly when the attribute is
written as its name, or when the leaf is on its path and has no exact form, or the suffix is empty. -/
theorem suffixed_eq_identityField_iff (hfield : criteria.fieldPath = settings.identityField)
    (hplace : place = criteria.fieldPath ∨ criteria.selects = false ∧ place = criteria.path) :
    (if criteria.wantsExact declared settings then place ++ settings.keywordSuffix else place) =
        settings.identityField ↔
      criteria.path = settings.identityField ∨ place = settings.identityField ∧
        (declared.isPlainString = false ∨ criteria.relationship.isFullText = true ∨
          settings.keywordSuffix = "") := by
  by_cases hname : criteria.path = settings.identityField
  · have hexact : criteria.wantsExact declared settings = false := by simp [wantsExact, hname]
    have hsame : place = settings.identityField := by
      rcases hplace with rfl | ⟨_, rfl⟩ <;> assumption
    simp [hexact, hsame, hname]
  · have hexact : criteria.wantsExact declared settings =
        (declared.isPlainString && !criteria.relationship.isFullText) := by
      simp [wantsExact, hname]
    have hlength : settings.identityField.toList.length ≤ place.toList.length := by
      rw [← hfield]
      rcases hplace with rfl | ⟨hselects, rfl⟩
      · exact Nat.le_refl _
      · exact length_fieldPath_le hselects
    have hsuffixed : place ++ settings.keywordSuffix = settings.identityField ↔
        place = settings.identityField ∧ settings.keywordSuffix = "" := by
      refine ⟨fun h => (eq_empty_of_append_eq h hlength).symm, ?_⟩
      rintro ⟨hsame, hempty⟩
      rw [hsame, hempty, String.append_empty]
    rw [hexact]
    cases declared.isPlainString <;> cases criteria.relationship.isFullText <;>
      simp [hname, hsuffixed]

end Criteria

namespace Compiler

variable {compiler : Compiler} {rules : List Rule} {query leaf : SearchQuery} {criteria : Criteria}

/-- The leaf of the test of a comparison is on the field at its place, or on its exact form. -/
theorem field?_of_isTestAt {place : String} (h : compiler.IsTestAt criteria place leaf) :
    ∃ declared, compiler.schema.lookup criteria.fieldPath = some declared ∧
      leaf.field? = some (if criteria.wantsExact declared compiler.settings then
        place ++ compiler.settings.keywordSuffix else place) := by
  obtain ⟨converted, hconvert, hleaf⟩ := h
  obtain ⟨path, declared, _, operand, hpath, hlookup, _, _, rfl⟩ :=
    Criteria.convert_eq_ok_iff.mp hconvert
  refine ⟨declared, ?_, ?_⟩
  · rw [Criteria.fieldPath, hpath]
    exact hlookup
  · rw [SearchQuery.field?, hleaf]
    simp

/-- The test of a key that identifies a document compares that field. -/
theorem field?_of_isKeyOf {path : AttributePath}
    (hpath : AttributePath.parse? criteria.path = some path)
    (hkey : path.keyPath? = some compiler.settings.identityField)
    (h : compiler.IsKeyOf criteria leaf) : leaf.field? = some compiler.settings.identityField := by
  obtain ⟨other, keyPath, literal, hother, hkeyPath, _, rfl⟩ := h
  obtain rfl := Option.some.inj (hpath.symm.trans hother)
  obtain rfl := Option.some.inj (hkey.symm.trans hkeyPath)
  simp [SearchQuery.field?, SearchQuery.comparison?, SearchContext.keyTerm, SearchContext.keyIsExact,
    SearchContext.fieldName]

/-- The leaves of the query of a list are those of the comparisons in the blocks of its tree. The test of
a key that identifies a document compares that field without a suffix. So does the leaf of a comparison of
that field whose attribute is written as its name; any other leaf of such a comparison does so when it is
on the path of the field, and there is no suffix: because the field is no plain string, because the
comparison is one of full texts, or because the suffix is empty. -/
theorem field_of_identity (h : compiler.searchQuery rules = .ok query) :
    ∃ tree, Tree.ofRules rules = .ok tree ∧
      (∀ leaf, leaf ∈ query.leaves ↔ ∃ block ∈ tree.blocks compiler.schema.joins,
        ∃ criteria ∈ block, compiler.IsTestAt criteria (criteria.placeIn block) leaf ∨
          compiler.IsKeyOf criteria leaf) ∧
      (∀ block ∈ tree.blocks compiler.schema.joins, ∀ criteria ∈ block,
        criteria.fieldPath = compiler.settings.identityField →
        ∃ declared leaf,
          compiler.schema.lookup compiler.settings.identityField = some declared ∧
          (∀ other, compiler.IsTestAt criteria (criteria.placeIn block) other ↔ other = leaf) ∧
          (leaf.field? = some compiler.settings.identityField ↔
            criteria.path = compiler.settings.identityField ∨
              criteria.placeIn block = compiler.settings.identityField ∧
                (declared.isPlainString = false ∨ criteria.relationship.isFullText = true ∨
                  compiler.settings.keywordSuffix = ""))) ∧
      ∀ criteria path, Rule.criteria criteria ∈ rules →
        AttributePath.parse? criteria.path = some path →
        path.keyPath? = some compiler.settings.identityField →
        ∃ leaf, (∀ other, compiler.IsKeyOf criteria other ↔ other = leaf) ∧
          leaf.field? = some compiler.settings.identityField := by
  obtain ⟨hvalid, tree, htree, hleaves, hblocks⟩ := exists_blocks_of_searchQuery h
  refine ⟨tree, htree, hblocks, fun block hblock criteria hcriteria hfield => ?_,
    fun criteria path hcriteria hpath hkey => ?_⟩
  · have hmem := (Tree.mem_leaves_iff _).mpr ⟨block, hblock, hcriteria⟩
    rw [hleaves, Rule.mem_criteriaOf] at hmem
    obtain ⟨leaf, hleaf⟩ := exists_isTestAt hvalid hmem (criteria.placeIn block)
    obtain ⟨declared, hdeclared, hname⟩ := field?_of_isTestAt ((hleaf leaf).mpr rfl)
    refine ⟨declared, leaf, by rwa [hfield] at hdeclared, hleaf, ?_⟩
    rw [hname, Option.some.injEq]
    exact Criteria.suffixed_eq_identityField_iff hfield
      (SearchContext.placeIn_cases hblock hcriteria)
  · have hselects : criteria.selects = true := by
      cases path with
      | plain segments => simp [AttributePath.keyPath?] at hkey
      | filtered array key value element => simp [Criteria.selects, hpath, AttributePath.isFiltered]
    obtain ⟨leaf, hleaf, honly⟩ := existsUnique_isKeyOf hvalid hcriteria hselects
    refine ⟨leaf, fun other => ⟨honly other, ?_⟩, field?_of_isKeyOf hpath hkey hleaf⟩
    rintro rfl
    exact hleaf

/-- The identifier of an author is compared as it is by its own name and as a key, and with the suffix
behind a selection. -/
theorem field_of_identity_authors :
    let compiler : Compiler := ⟨⟨[("authors", .nested), ("authors.id", .ofStrings),
      ("authors.role", .ofStrings)]⟩, ⟨"authors.id", ".keyword"⟩⟩
    let named : Criteria := ⟨"authors.id", .equal, .value (.text "7"), false⟩
    let keyed : Criteria := ⟨"authors[id:8].role", .equal, .value (.text "editor"), false⟩
    let selected : Criteria := ⟨"authors[role:editor].id", .equal, .value (.text "9"), false⟩
    let rules : List Rule := [.separator .opening, .criteria named, .logical .and, .criteria keyed,
      .logical .and, .criteria selected, .separator .closing]
    let editor : SearchQuery := .term "authors.role.keyword" (.text "editor")
    let query : SearchQuery := .filtering [
      .nested "authors" (.term "authors.id" (.text "7")),
      .nested "authors" (.filtering [.term "authors.id" (.text "8"), editor]),
      .nested "authors" (.filtering [editor, .term "authors.id.keyword" (.text "9")])]
    compiler.searchQuery rules = .ok query ∧
      (∃ leaf, (∀ other, compiler.IsTestAt named "authors.id" other ↔ other = leaf) ∧
        leaf.field? = some "authors.id") ∧
      (∃ leaf, (∀ other, compiler.IsTestAt selected "authors.id" other ↔ other = leaf) ∧
        leaf.field? ≠ some "authors.id") ∧
      ∃ leaf, (∀ other, compiler.IsKeyOf keyed other ↔ other = leaf) ∧
        leaf.field? = some "authors.id" := by
  intro compiler named keyed selected rules editor query
  have hquery : compiler.searchQuery rules = .ok query := by cbv
  have htree : Tree.ofRules rules = .ok (.group .and [.leaf named, .leaf keyed, .leaf selected]) := by
    rfl
  obtain ⟨tree, hbuilt, _, htests, hkeys⟩ := field_of_identity hquery
  obtain rfl := Except.ok.inj (htree.symm.trans hbuilt)
  have hapart : compiler.schema.joins [.leaf named, .leaf keyed, .leaf selected] = false := by
    cbv
  have hblocks : Tree.blocks compiler.schema.joins
      (.group .and [.leaf named, .leaf keyed, .leaf selected]) = [[named], [keyed], [selected]] := by
    rw [Tree.blocks, hapart]
    rfl
  have hnamed : named.placeIn [named] = "authors.id" := by
    rw [Criteria.placeIn, if_pos (by decide)]
    cbv
  have hselected : selected.placeIn [selected] = "authors.id" := by
    rw [Criteria.placeIn, if_pos (by decide)]
    cbv
  rw [hblocks] at htests
  obtain ⟨_, plain, _, honly, hplain⟩ := htests [named] (by simp) named (by simp) hnamed
  obtain ⟨declared, other, hdeclared, hone, hother⟩ :=
    htests [selected] (by simp) selected (by simp) hselected
  obtain rfl : AttributeType.ofStrings = declared := Option.some.inj hdeclared
  rw [hnamed] at honly
  rw [hselected] at hone
  refine ⟨hquery, ⟨plain, honly, hplain.mpr (Or.inl rfl)⟩, ⟨other, hone, ?_⟩, ?_⟩
  · exact fun hfield => absurd (hother.mp hfield) (by decide)
  · have hpath : AttributePath.parse? keyed.path =
        some (.filtered ["authors"] "id" "8" ["role"]) := by cbv
    exact hkeys keyed _ (by simp [rules]) hpath (by cbv)

/-- Behind a selection the field that identifies a document gets the suffix. -/
theorem identity_suffixed_behind_selection :
    let compiler : Compiler := ⟨⟨[("authors", .nested), ("authors.id", .ofStrings),
      ("authors.role", .ofStrings)]⟩, ⟨"authors.id", ".keyword"⟩⟩
    let selected : Criteria := ⟨"authors[role:editor].id", .equal, .value (.text "7"), false⟩
    let rules : List Rule := [.separator .opening, .criteria selected, .separator .closing]
    selected.fieldPath = compiler.settings.identityField ∧
      compiler.searchQuery rules = .ok (.filtering [.nested "authors" (.filtering [
        .term "authors.role.keyword" (.text "editor"), .term "authors.id.keyword" (.text "7")])]) := by
  intro compiler selected rules
  exact ⟨by cbv, by cbv⟩

end Compiler

end FilterRules
