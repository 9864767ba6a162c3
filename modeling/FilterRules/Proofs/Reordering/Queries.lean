import FilterRules.Proofs.Reordering.Document
import FilterRules.Proofs.Reordering.Search

/-!
# Both queries of reordered rules

The order of the items of a group does not matter to either query, but for the order in which the parts of
the query stand.
-/

namespace FilterRules.Compiler

variable {compiler : Compiler} {rules : List Rule}

/-- A valid list can be read as groups. When it is a single group and its items change their places in
their groups, at any depth, the list stays valid, and of either kind both lists have a query or neither
has. The queries are then the same but for the order of the lists in them, because paths share a list or a
nested field in any order. -/
theorem queries_reordered (hvalid : validate rules compiler.schema = .ok ()) :
    (∃ groups, Item.Read groups rules) ∧
      ∀ item, Item.Read [item] rules → ∀ other, item.Reordered other →
        validate other.rules compiler.schema = .ok () ∧
        Option.Rel DocumentQuery.Reordered (compiler.documentQuery rules).toOption
          (compiler.documentQuery other.rules).toOption ∧
        Option.Rel SearchQuery.Reordered (compiler.searchQuery rules).toOption
          (compiler.searchQuery other.rules).toOption ∧
        ∀ kind paths moved, List.Perm paths moved →
          compiler.schema.groupingRoot? kind paths = compiler.schema.groupingRoot? kind moved := by
  refine ⟨Item.exists_read (checkOrder_of_validate hvalid), ?_⟩
  rintro item ⟨_, hrules⟩ other h
  rw [Item.rulesOf_single] at hrules
  subst hrules
  -- The other list is reordered back to the first one: neither has a query without the other.
  refine ⟨(h.validate_iff _).mp hvalid, ?_, ?_, fun kind _ _ => compiler.schema.groupingRoot?_perm kind⟩
  · refine Outcome.rel_toOption (fun _ => exists_documentQuery_of_reordered h) fun _ hquery => ?_
    obtain ⟨query, hquery, _⟩ := exists_documentQuery_of_reordered h.symm hquery
    exact ⟨query, hquery⟩
  · refine Outcome.rel_toOption (fun _ => exists_searchQuery_of_reordered h) fun _ hquery => ?_
    obtain ⟨query, hquery, _⟩ := exists_searchQuery_of_reordered h.symm hquery
    exact ⟨query, hquery⟩

/-- A group that changes its place, and its items theirs. -/
theorem queries_reordered_editions :
    let compiler : Compiler := ⟨⟨[("type", .ofStrings), ("prices", .nested),
      ("prices.kind", .ofStrings), ("prices.market", .ofStrings), ("prices.currency", .ofStrings)]⟩, {}⟩
    let book : Criteria := ⟨"type", .equal, .value (.text "book"), false⟩
    let listed : Criteria := ⟨"prices.kind", .equal, .value (.text "list"), false⟩
    let traded : Criteria := ⟨"prices.market", .equal, .value (.text "trade"), false⟩
    let foreign : Criteria := ⟨"prices.currency", .notEqual, .value (.text "EUR"), false⟩
    let group (first second third : Criteria) : Item := .group none (.joined (.criteria first) .and
      (.joined (.criteria second) .and (.single (.criteria third))))
    let item : Item := .group none (.joined (.criteria book) .or (.single (group listed traded foreign)))
    let other : Item := .group none (.joined (group traded foreign listed) .or (.single (.criteria book)))
    let field (path : String) (op : CompareOp) (text : String) : DocumentQuery :=
      .fields [.mk path (.compare op (.text text))]
    let element (queries : List DocumentQuery) : DocumentQuery :=
      .fields [.mk "prices" (.elementMatch (.and queries))]
    let term (path : String) (text : String) : SearchQuery := .term (path ++ ".keyword") (.text text)
    let search (first second : SearchQuery) : SearchQuery := .filtering
      [.nested "prices" (.filtering [first, second]), .noneOf [.nested "prices" (.filtering
        [first, second, term "prices.currency" "EUR"])]]
    let kind : SearchQuery := term "prices.kind" "list"
    let market : SearchQuery := term "prices.market" "trade"
    validate item.rules compiler.schema = .ok () ∧ item.Reordered other ∧
      compiler.documentQuery item.rules = .ok (.or [field "type" .equal "book",
        element [field "kind" .equal "list", field "market" .equal "trade",
          field "currency" .notEqual "EUR"]]) ∧
      compiler.documentQuery other.rules = .ok (.or [element [field "market" .equal "trade",
        field "currency" .notEqual "EUR", field "kind" .equal "list"], field "type" .equal "book"]) ∧
      Option.Rel DocumentQuery.Reordered (compiler.documentQuery item.rules).toOption
        (compiler.documentQuery other.rules).toOption ∧
      compiler.searchQuery item.rules =
        .ok (.bool [] [] [term "type" "book", search kind market] []) ∧
      compiler.searchQuery other.rules =
        .ok (.bool [] [] [search market kind, term "type" "book"] []) ∧
      Option.Rel SearchQuery.Reordered (compiler.searchQuery item.rules).toOption
        (compiler.searchQuery other.rules).toOption := by
  intro compiler book listed traded foreign group item other field element term search kind market
  have hvalid : validate item.rules compiler.schema = .ok () := by decide +kernel
  have hinner : Item.Reordered (group listed traded foreign) (group traded foreign listed) :=
    .group none (.refl _) (.cons [_, _] [] (.criteria listed)
      (.cons [] [_] (.criteria traded) (.cons [] [] (.criteria foreign) .nil)))
  have hreordered : item.Reordered other :=
    .group none (.refl _) (.cons [_] [] (.criteria book) (.cons [] [] hinner .nil))
  have hread : Item.Read [item] item.rules := ⟨by simp [item, Item.isGroup], Item.rulesOf_single⟩
  obtain ⟨_, hqueries⟩ := queries_reordered hvalid
  obtain ⟨_, hdocument, hsearch, _⟩ := hqueries item hread other hreordered
  exact ⟨hvalid, hreordered, by cbv, by cbv, hdocument, by cbv, by cbv, hsearch⟩

end FilterRules.Compiler
