import FilterRules.Proofs.Spelling.Document
import FilterRules.Proofs.Spelling.Search

/-!
# Where the spelling of an attribute shows

The canonical spelling of the attributes keeps both queries of a valid list, apart from three places
that take an attribute as it stands: the field of a comparison without a selection in a document query,
a group of comparisons that share a nested field in a search query, and the comparison of an attribute
with the identifying field.
-/

namespace FilterRules

namespace Compiler

variable {compiler : Compiler} {rules : List Rule}

/-- The canonical spelling of a comparison in a valid list is a path that the schema knows, and without
a selection it is that path. -/
theorem lookup_canonicalPath (hvalid : validate rules compiler.schema = .ok ()) {criteria : Criteria}
    (hcriteria : Rule.criteria criteria ∈ rules) (hnamed : criteria.isNamed = true) :
    ∃ path declared, AttributePath.parse? criteria.path = some path ∧
      AttributePath.parse? criteria.canonicalPath = some path ∧
      compiler.schema.lookup path.schemaPath = some declared ∧
      (criteria.selects = false → criteria.canonicalPath = path.schemaPath) := by
  obtain ⟨path, declared, _, _, hpath, hlookup, _⟩ :=
    Criteria.convert_eq_ok_iff.mp (convert_of_validate compiler.settings false hvalid _ hcriteria)
  refine ⟨path, declared, hpath, (Criteria.parse?_respelled hnamed).trans hpath, hlookup, ?_⟩
  intro hselects
  rw [Criteria.selects, hpath, Option.any_some] at hselects
  cases path with
  | plain segments => simp [Criteria.canonicalPath, hpath, AttributePath.text,
      AttributePath.schemaPath]
  | filtered array key value element => simp [AttributePath.isFiltered] at hselects

/-- A valid list is valid under the canonical spelling of its attributes when its selections have keys
and values. Each attribute is then the spelling of a path that the schema knows, and of the same path
as before. The document query is the same exactly when the comparisons without a selection have that
spelling already, and a fault of it in any case. The search query is the same, or its fault, when the
identifying field is the same and the groups of comparisons are grouped alike. -/
theorem queries_respelledRules (hvalid : validate rules compiler.schema = .ok ()) :
    (validate (respelledRules rules) compiler.schema = .ok () ↔
      ∀ criteria, Rule.criteria criteria ∈ rules → criteria.isNamed = true) ∧
    ((∀ criteria, Rule.criteria criteria ∈ rules → criteria.isNamed = true) →
      (∀ criteria, Rule.criteria criteria ∈ rules →
        ∃ path declared, AttributePath.parse? criteria.path = some path ∧
          AttributePath.parse? criteria.canonicalPath = some path ∧
          compiler.schema.lookup path.schemaPath = some declared ∧
          (criteria.selects = false → criteria.canonicalPath = path.schemaPath)) ∧
      (∀ error, compiler.documentQuery rules = .error error →
        compiler.documentQuery (respelledRules rules) = .error error) ∧
      (∀ query, compiler.documentQuery rules = .ok query →
        ∃ other, compiler.documentQuery (respelledRules rules) = .ok other ∧
          (query = other ↔ ∀ criteria, Rule.criteria criteria ∈ rules →
            criteria.selects = true ∨ criteria.canonicalPath = criteria.path)) ∧
      ((∀ criteria, Rule.criteria criteria ∈ rules →
          (criteria.path = compiler.settings.identityField ↔
            criteria.canonicalPath = compiler.settings.identityField)) →
        (∀ tree, Tree.ofRules rules = .ok tree →
          ∀ leaves ∈ tree.criteriaGroups, compiler.schema.GroupsAlike leaves) →
        compiler.searchQuery (respelledRules rules) = compiler.searchQuery rules)) := by
  refine ⟨validate_respelledRules_iff hvalid, fun hnamed => ⟨?_, ?_, ?_, ?_⟩⟩
  · intro criteria hcriteria
    exact lookup_canonicalPath hvalid hcriteria (hnamed criteria hcriteria)
  · intro error herror
    exact (herror ▸ documentQuery_respelledRules hvalid hnamed).eq_error
  · intro query hquery
    exact (hquery ▸ documentQuery_respelledRules hvalid hnamed).exists_ok
  · exact searchQuery_respelledRules hvalid hnamed

/-- A selection with blanks beside a comparison under its canonical spelling. -/
theorem queries_respelledRules_selection :
    let compiler : Compiler := ⟨⟨[("codes.value", .ofStrings), ("price", .ofNumbers)]⟩, {}⟩
    let coded : Criteria := ⟨" codes[ kind : isbn ]. value", .equal, .value (.text "7"), false⟩
    let priced : Criteria := ⟨"price", .greater, .value (.integer 10), false⟩
    let rules : List Rule := [.separator .opening, .criteria coded, .logical .and,
      .criteria priced, .separator .closing]
    let query : DocumentQuery := .and [
      .fields [.mk "codes" (.elementMatch (.fields [.mk "kind" (.equals (.text "isbn")),
        .mk "value" (.compare .equal (.text "7"))]))],
      .fields [.mk "price" (.compare .greater (.integer 10))]]
    validate rules compiler.schema = .ok () ∧
      coded.canonicalPath = "codes[kind:isbn].value" ∧
      validate (respelledRules rules) compiler.schema = .ok () ∧
      compiler.documentQuery rules = .ok query ∧
      compiler.documentQuery (respelledRules rules) = .ok query ∧
      compiler.searchQuery (respelledRules rules) = compiler.searchQuery rules := by
  intro compiler coded priced rules query
  have hvalid : validate rules compiler.schema = .ok () := by decide +kernel
  have hquery : compiler.documentQuery rules = .ok query := by cbv
  have hcanonical : coded.canonicalPath = "codes[kind:isbn].value" := by decide +kernel
  have hselects : coded.selects = true := by decide +kernel
  have hboth {property : Criteria → Prop} (hcoded : property coded) (hpriced : property priced) :
      ∀ criteria, Rule.criteria criteria ∈ rules → property criteria := by
    simp [rules, hcoded, hpriced]
  have hnamed : ∀ criteria, Rule.criteria criteria ∈ rules → criteria.isNamed = true :=
    hboth (by decide +kernel) (by decide +kernel)
  obtain ⟨hvalidity, hqueries⟩ := queries_respelledRules hvalid
  obtain ⟨_, _, hdocument, hsearch⟩ := hqueries hnamed
  obtain ⟨other, hother, hsame⟩ := hdocument query hquery
  obtain rfl := hsame.mpr (hboth (Or.inl hselects) (Or.inr (by decide +kernel)))
  refine ⟨hvalid, hcanonical, hvalidity.mpr hnamed, hquery, hother, hsearch ?_ ?_⟩
  · exact hboth (by decide +kernel) (by decide +kernel)
  · intro tree htree leaves hleaves
    obtain rfl : Tree.group .and [.leaf coded, .leaf priced] = tree := Except.ok.inj htree
    obtain rfl : leaves = [coded, priced] := by
      simpa [Tree.criteriaGroups, Tree.criteriaGroupsOf, Tree.criteria?] using hleaves
    exact Or.inl ⟨coded, by simp, hselects⟩

/-- Under two spellings of one attribute a list has two document queries and two search queries, and a
field that the schema does not know is in the first one of each. -/
theorem queries_differ_by_spelling :
    let compiler : Compiler := ⟨⟨[("prices", .nested), ("prices.currency", .ofStrings),
      ("prices.price", .ofNumbers)]⟩, {}⟩
    let priced : Criteria := ⟨"prices. price", .equal, .value (.integer 100), false⟩
    let paid : Criteria := ⟨"prices.currency", .equal, .value (.text "EUR"), false⟩
    let rules : List Rule := [.separator .opening, .criteria priced, .logical .and, .criteria paid,
      .separator .closing]
    let document (field : String) : DocumentQuery := .fields [.mk "prices" (.elementMatch (.and
      [.fields [.mk field (.compare .equal (.integer 100))],
        .fields [.mk "currency" (.compare .equal (.text "EUR"))]]))]
    let search (field : String) : SearchQuery := .nested "prices" (.filtering
      [.term field (.integer 100), .term "prices.currency.keyword" (.text "EUR")])
    validate rules compiler.schema = .ok () ∧ priced.canonicalPath = "prices.price" ∧
      compiler.documentQuery rules = .ok (document " price") ∧
      compiler.documentQuery (respelledRules rules) = .ok (document "price") ∧
      compiler.searchQuery rules = .ok (search "prices. price") ∧
      compiler.searchQuery (respelledRules rules) = .ok (search "prices.price") ∧
      document " price" ≠ document "price" ∧ search "prices. price" ≠ search "prices.price" ∧
      compiler.schema.lookup "prices. price" = none := by
  intro compiler priced paid rules document search
  refine ⟨by decide +kernel, by decide +kernel, by cbv, by cbv, by cbv, by cbv, ?_, ?_, by decide⟩
  · simp [document]
  · simp [search, SearchQuery.filtering]

end Compiler

end FilterRules
