import FilterRules.Proofs.Document.Meaning

/-!
# Empty groups in a document query

A group without a criteria comes down to nothing and leaves no trace in the query. In a conjunction
this is as good as a group that is true, and so it is on top of a list. A disjunction is another
matter: one more item that is true would make it true, but the query only asks for the other ones. The
value of a query is therefore that of the infix expression whose disjunctions leave out the items
without a criteria, and every empty group can be read as true just where no disjunction has such an
item.
-/

namespace FilterRules

/-- Whether all of some groups hold. -/
def Item.allHold? (value? : Item → Option Bool) : List Item → Option Bool
  | [] => some true
  | first :: rest => do
    let value ← value? first
    let others ← allHold? value? rest
    return value && others

namespace Item

/-- Whether groups hold depends on their values alone. -/
theorem allHold?_congr {value? other? : Item → Option Bool} {groups : List Item}
    (h : ∀ group ∈ groups, value? group = other? group) :
    allHold? value? groups = allHold? other? groups := by
  induction groups with
  | nil => rfl
  | cons first rest ih =>
    have hfirst : value? first = other? first := h first List.mem_cons_self
    have hrest := ih fun other hother => h other (List.mem_cons_of_mem _ hother)
    rw [allHold?, allHold?, hfirst, hrest]

/-- Changed groups hold when the groups do with the values that they have once changed. -/
theorem allHold?_map (value? : Item → Option Bool) (change : Item → Item) (groups : List Item) :
    allHold? value? (groups.map change) = allHold? (fun group => value? (change group)) groups := by
  induction groups with
  | nil => rfl
  | cons first rest ih => rw [List.map_cons, allHold?, allHold?, ih]

variable {schema : Schema}

/-- Groups hold when all the members that they come down to do. -/
theorem allHold?_of_membersOf (truth : FieldClause → Bool) (hlists : schema.Lacks .array)
    {groups : List Item} {members : List Member} (h : membersOf schema groups = .ok members) :
    allHold? (keptValue? Connective.keeps (Criteria.clauseValue? schema truth)) groups =
      some (Connective.and.holds (Member.evals truth members)) := by
  induction groups generalizing members with
  | nil =>
    obtain rfl : [] = members := Except.ok.inj h
    rfl
  | cons first rest ih =>
    obtain ⟨others, hothers, h⟩ := Outcome.bind_eq_ok_iff.mp h
    obtain ⟨found, hfound, h⟩ := Outcome.bind_eq_ok_iff.mp h
    obtain rfl : found.toList ++ others = members := Except.ok.inj h
    have hvalue := keptValue?_of_member? truth hlists first hfound
    have hrest := ih hothers
    rw [allHold?, hvalue, hrest]
    cases found <;> simp [Member.evalFound, Member.evals, Connective.holds]

end Item

/-- The query of members holds when all of them do. -/
theorem DocumentQuery.eval_ofMembers {truth : FieldClause → Bool} {members : List Member}
    {query : DocumentQuery} (h : ofMembers members = .ok query) :
    query.eval truth = Connective.and.holds (Member.evals truth members) := by
  match members, h with
  | [], h =>
    obtain rfl : matchAll = query := Except.ok.inj h
    rfl
  | [member], h =>
    obtain rfl : member.toQuery = query := Except.ok.inj h
    simp [Connective.holds, Member.evals]
  | _ :: _ :: _, h => simp [ofMembers] at h

namespace Compiler

/-- The document query of a rule list can be read off its groups, and however the list is read as
groups: under every assignment of truth values to field clauses the query holds when all groups on top
do, where an empty group is true, but a disjunction leaves out its items without a criteria. When no
disjunction has such an item, every empty group can be read as true. -/
theorem eval_documentQuery_groups {compiler : Compiler} {rules : List Rule} {query : DocumentQuery}
    (truth : FieldClause → Bool) (hlists : compiler.schema.Lacks .array)
    (h : compiler.documentQuery rules = .ok query) :
    (∃ groups, Item.Read groups rules) ∧ ∀ groups, Item.Read groups rules →
      Item.allHold? (Item.keptValue? Connective.keeps (compiler.clauseValue? truth)) groups =
        some (query.eval truth) ∧
      ((∀ group ∈ Item.groupsOf groups, .or ∈ group.connectives → ∀ item ∈ group.items,
          item.hasCriteria) →
        Item.allHold? (Item.value? (compiler.clauseValue? truth)) groups =
          some (query.eval truth)) := by
  have hvalid := validate_of_documentQuery ⟨query, h⟩
  refine ⟨Item.exists_read (checkOrder_of_validate hvalid), fun groups hread => ?_⟩
  rw [documentQuery_of_validate hvalid hread] at h
  obtain ⟨members, hmembers, hquery⟩ := Outcome.bind_eq_ok_iff.mp h
  -- The members are those of the converted groups; each of these has the value of the group itself.
  have hvalues : ∀ group ∈ groups,
      (group.map fun criteria =>
          criteria.converted compiler.schema compiler.settings false).keptValue? Connective.keeps
          (Criteria.clauseValue? compiler.schema truth) =
        group.keptValue? Connective.keeps (compiler.clauseValue? truth) := by
    intro group hgroup
    refine Item.keptValue?_map (Connective.keeps_map _) group fun criteria hcriteria => ?_
    have hmem : Rule.criteria criteria ∈ rules :=
      hread.2 ▸ (Item.infix_rulesOf hgroup).subset hcriteria
    rw [clauseValue?, convert_of_validate compiler.settings false hvalid criteria hmem]
    rfl
  have hkept : Item.allHold? (Item.keptValue? Connective.keeps (compiler.clauseValue? truth)) groups =
      some (query.eval truth) := by
    rw [DocumentQuery.eval_ofMembers hquery, ← Item.allHold?_of_membersOf truth hlists hmembers,
      Item.convertedGroups, Item.allHold?_map, Item.allHold?_congr hvalues]
  refine ⟨hkept, fun hitems => ?_⟩
  rw [← hkept]
  refine Item.allHold?_congr fun group hgroup => ?_
  refine (group.keptValue?_of_hasCriteria fun inner hinner => ?_).symm
  exact hitems inner (List.mem_flatMap.mpr ⟨group, hgroup, hinner⟩)

/-- An empty group in a conjunction, beside a disjunction of two comparisons. -/
theorem eval_documentQuery_groups_conjunction :
    let compiler : Compiler := ⟨⟨[("format", .ofStrings), ("type", .ofStrings)]⟩, {}⟩
    let book : Criteria := ⟨"type", .equal, .value (.text "book"), false⟩
    let disc : Criteria := ⟨"type", .equal, .value (.text "disc"), false⟩
    let paper : Criteria := ⟨"format", .equal, .value (.text "paper"), false⟩
    let either : Item := .group none (.joined (.criteria book) .or (.single (.criteria disc)))
    let item : Item := .group none (.joined (.criteria paper) .and
      (.joined either .and (.single .empty)))
    let truth : FieldClause → Bool := fun clause => clause.path == "type"
    let query : DocumentQuery := .and [
      .fields [.mk "format" (.compare .equal (.text "paper"))],
      .or [.fields [.mk "type" (.compare .equal (.text "book"))],
        .fields [.mk "type" (.compare .equal (.text "disc"))]]]
    compiler.schema.Lacks .array ∧ HasEmptyGroup item.rules ∧
      compiler.documentQuery item.rules = .ok query ∧
      Item.allHold? (Item.value? (compiler.clauseValue? truth)) [item] = some false := by
  intro compiler book disc paper either item truth query
  have hlists : compiler.schema.Lacks .array := Schema.Lacks.of_entries (by decide)
  have hquery : compiler.documentQuery item.rules = .ok query := by cbv
  have hread : Item.Read [item] item.rules := ⟨by simp [item, Item.isGroup], Item.rulesOf_single⟩
  refine ⟨hlists, by decide, hquery, ?_⟩
  rw [((eval_documentQuery_groups truth hlists hquery).2 [item] hread).2]
  · decide
  · simp [item, either, Item.groupsOf, Item.groups, Items.groups, Items.connectives, Items.toList,
      Item.hasCriteria, Item.rules, Rule.isCriteria]

/-- A disjunction with an empty group is true as an expression, but its query asks for one of the other
items. -/
theorem eval_documentQuery_disjunction :
    let compiler : Compiler := ⟨⟨[("type", .ofStrings)]⟩, {}⟩
    let book : Criteria := ⟨"type", .equal, .value (.text "book"), false⟩
    let disc : Criteria := ⟨"type", .equal, .value (.text "disc"), false⟩
    let item : Item := .group none (.joined (.criteria book) .or
      (.joined (.criteria disc) .or (.single .empty)))
    let truth : FieldClause → Bool := fun _ => false
    let query : DocumentQuery := .or [.fields [.mk "type" (.compare .equal (.text "book"))],
      .fields [.mk "type" (.compare .equal (.text "disc"))]]
    item.rules = [.separator .opening, .criteria book, .logical .or, .criteria disc, .logical .or,
        .separator .opening, .separator .closing, .separator .closing] ∧
      compiler.schema.Lacks .array ∧ compiler.documentQuery item.rules = .ok query ∧
      query.eval truth = false ∧ item.value? (compiler.clauseValue? truth) = some true := by
  intro compiler book disc item truth query
  have hlists : compiler.schema.Lacks .array := Schema.Lacks.of_entries (by decide)
  have hquery : compiler.documentQuery item.rules = .ok query := by cbv
  have hvalue : item.value? (compiler.clauseValue? truth) = some true := by decide
  exact ⟨rfl, hlists, hquery, rfl, hvalue⟩

end Compiler

end FilterRules
