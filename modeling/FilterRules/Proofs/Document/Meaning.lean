import FilterRules.Proofs.Document.Acceptance
import FilterRules.Proofs.Rule.Infix
import FilterRules.Proofs.Schema.Grouping

/-!
# The meaning of a document query

A document query has a truth value under every assignment of truth values to its field clauses. Where
no attribute holds a list and no group is empty, that value is the value of the rule list as an infix
expression: every item comes down to a member with the item's value, in whichever order the groups
are reduced.
-/

namespace FilterRules

mutual

/-- The truth value of a query, by the values of its field clauses. -/
def DocumentQuery.eval (truth : FieldClause → Bool) : DocumentQuery → Bool
  | .matchAll => true
  | .fields clauses => clauses.all truth
  | .and queries => (DocumentQuery.evals truth queries).all id
  | .or queries => (DocumentQuery.evals truth queries).any id

/-- The truth values of queries. -/
def DocumentQuery.evals (truth : FieldClause → Bool) : List DocumentQuery → List Bool
  | [] => []
  | query :: queries => query.eval truth :: DocumentQuery.evals truth queries

end

/-- The truth value of a criteria with converted literals: that of its clause. -/
def Criteria.clauseValue? (schema : Schema) (truth : FieldClause → Bool) (criteria : Criteria) :
    Option Bool :=
  (criteria.clause schema).toOption.map truth

/-- The truth value of a criteria, if its literals can be converted. -/
def Compiler.clauseValue? (compiler : Compiler) (truth : FieldClause → Bool)
    (criteria : Criteria) : Option Bool := do
  let converted ← (criteria.convert 0 compiler.schema compiler.settings false).toOption
  converted.clauseValue? compiler.schema truth

variable {schema : Schema} {truth : FieldClause → Bool}

/-- The truth value of members is that of each as a query. -/
def Member.evals (truth : FieldClause → Bool) (members : List Member) : List Bool :=
  members.map fun member => member.toQuery.eval truth

/-- Queries are evaluated one by one. -/
theorem DocumentQuery.evals_eq_map (truth : FieldClause → Bool) (queries : List DocumentQuery) :
    DocumentQuery.evals truth queries = queries.map (·.eval truth) := by
  induction queries with
  | nil => rfl
  | cons query queries ih => rw [DocumentQuery.evals, ih, List.map_cons]

/-- Joined queries hold when the connective says so. -/
theorem DocumentQuery.eval_combine (connective : Connective) (queries : List DocumentQuery) :
    (DocumentQuery.combine connective queries).eval truth =
      connective.holds (queries.map (·.eval truth)) := by
  rw [← DocumentQuery.evals_eq_map]
  cases connective <;> simp [DocumentQuery.combine, DocumentQuery.eval, Connective.holds]

/-- Without lists the members of a group are joined as they are. -/
theorem resolveGroup_eq_combine (h : schema.Lacks .array) (connective : Connective)
    (members : List Member) : resolveGroup connective members schema =
      .combine connective (members.map Member.toQuery) := by
  rw [resolveGroup]
  split
  · rfl
  · rw [h.groupingRoot?_eq_none]

/-- The truth value of what members come down to; nothing at all is true. -/
def Member.evalFound (truth : FieldClause → Bool) (found : Option Member) : Bool :=
  found.elim true fun member => member.toQuery.eval truth

/-- Without lists what members come down to holds when their connective says so. -/
theorem Member.eval_joined (h : schema.Lacks .array) {connective : Option Connective}
    {members : List Member} {found : Option Member}
    (hjoined : joined schema connective members = .ok found) :
    evalFound truth found = (connective.getD .and).holds (Member.evals truth members) := by
  cases connective with
  | none =>
    match members, hjoined with
    | [], hjoined =>
      obtain rfl : none = found := by simpa [joined] using hjoined
      rfl
    | [only], hjoined =>
      obtain rfl : some only = found := by simpa [joined] using hjoined
      simp [evalFound, Connective.holds, Member.evals]
    | _ :: _ :: _, hjoined => simp [joined] at hjoined
  | some connective =>
    rw [joined] at hjoined
    split at hjoined
    case isTrue => simp at hjoined
    case isFalse =>
      obtain rfl : some (Member.query (resolveGroup connective members schema)) = found := by
        simpa using hjoined
      rw [evalFound, Option.elim_some, Member.toQuery, resolveGroup_eq_combine h,
        DocumentQuery.eval_combine, List.map_map]
      rfl

/-- Connectives that agree on one begin with it. -/
theorem Connective.agreed_headD {connectives : List Connective} {agreement : Option Connective}
    (h : agreed connectives = .ok agreement) :
    connectives.headD .and = agreement.getD .and := by
  cases connectives with
  | nil =>
    obtain rfl : none = agreement := Except.ok.inj h
    rfl
  | cons first others =>
    rw [agreed] at h
    split at h
    case isTrue =>
      obtain rfl : some first = agreement := Except.ok.inj h
      rfl
    case isFalse => simp at h

/-- The values that an item adds to its group count for as much as the member that it comes down to:
an item that comes down to nothing is true for a conjunction, and left out by a disjunction. -/
theorem Connective.holds_addedValues? (truth : FieldClause → Bool) {item : Item}
    {found : Option Member} (hfound : found.isSome ↔ item.hasCriteria) (connective : Connective) :
    ∃ first, Item.addedValues? (connective.keeps item) (some (Member.evalFound truth found)) =
        some first ∧
      ∀ values members, connective.holds values = connective.holds (Member.evals truth members) →
        connective.holds (first ++ values) =
          connective.holds (Member.evals truth (found.toList ++ members)) := by
  cases connective with
  | and =>
    refine ⟨[Member.evalFound truth found], rfl, fun values members h => ?_⟩
    cases found with
    | none => simpa [Connective.holds, Member.evalFound] using h
    | some member =>
      simp only [Connective.holds, Member.evals, List.all_map] at h
      simp [Connective.holds, Member.evals, Member.evalFound, h]
  | or =>
    cases found with
    | none =>
      have hempty : item.hasCriteria = false := by simpa using hfound
      refine ⟨[], by simp [Item.addedValues?, Connective.keeps, hempty], fun values members h => ?_⟩
      simpa using h
    | some member =>
      have hcriteria : item.hasCriteria = true := hfound.mp rfl
      refine ⟨[member.toQuery.eval truth], ?_, fun values members h => ?_⟩
      · simp [Item.addedValues?, Connective.keeps, hcriteria, Member.evalFound]
      · simp only [Connective.holds, Member.evals, List.any_map] at h
        simp [Connective.holds, Member.evals, h]

mutual

/-- An item comes down to its value, where disjunctions leave out the items without a criteria. -/
theorem Item.keptValue?_of_member? (truth : FieldClause → Bool) (hlists : schema.Lacks .array) :
    (item : Item) → {found : Option Member} → item.member? schema = .ok found →
    item.keptValue? Connective.keeps (Criteria.clauseValue? schema truth) =
      some (Member.evalFound truth found)
  | .criteria criteria, found, h => by
    rw [Item.member?] at h
    obtain ⟨clause, hclause, rfl⟩ := Outcome.map_eq_ok_iff.mp h
    rw [Item.keptValue?, Criteria.clauseValue?, hclause]
    simp [Except.toOption, Member.evalFound, Member.toQuery, DocumentQuery.eval]
  | .empty, found, h => by
    rw [Item.member?] at h
    obtain rfl : none = found := Except.ok.inj h
    rfl
  | .group lead items, found, h => by
    rw [Item.member?] at h
    obtain ⟨members, hmembers, h⟩ := Outcome.bind_eq_ok_iff.mp h
    obtain ⟨connective, hagreed, hjoined⟩ := Outcome.bind_eq_ok_iff.mp h
    have hconnective : items.connective lead = connective.getD .and :=
      Connective.agreed_headD hagreed
    obtain ⟨values, hvalues, hholds⟩ :=
      Items.keptValues?_of_members truth hlists items hmembers (items.connective lead)
    rw [Item.keptValue?, hvalues, Option.map_some, hholds, hconnective,
      Member.eval_joined hlists hjoined]

/-- The values that a group keeps count for as much as the members that its items come down to. -/
theorem Items.keptValues?_of_members (truth : FieldClause → Bool) (hlists : schema.Lacks .array) :
    (items : Items) → {members : List Member} → items.members schema = .ok members →
    (connective : Connective) → ∃ values,
      items.keptValues? Connective.keeps (Criteria.clauseValue? schema truth) connective =
        some values ∧
      connective.holds values = connective.holds (Member.evals truth members)
  | .single item, members, h, connective => by
    rw [Items.members] at h
    obtain ⟨found, hfound, rfl⟩ := Outcome.map_eq_ok_iff.mp h
    have hvalue := Item.keptValue?_of_member? truth hlists item hfound
    obtain ⟨first, hfirst, hholds⟩ :=
      connective.holds_addedValues? truth (Item.member?_eq_ok item hfound).1
    refine ⟨first, by rw [Items.keptValues?, hvalue, hfirst], ?_⟩
    simpa [Member.evals] using hholds [] [] rfl
  | .joined item _ others, members, h, connective => by
    rw [Items.members] at h
    obtain ⟨rest, hrest, h⟩ := Outcome.bind_eq_ok_iff.mp h
    obtain ⟨found, hfound, h⟩ := Outcome.bind_eq_ok_iff.mp h
    obtain rfl : found.toList ++ rest = members := Except.ok.inj h
    have hvalue := Item.keptValue?_of_member? truth hlists item hfound
    obtain ⟨values, hvalues, hsame⟩ :=
      Items.keptValues?_of_members truth hlists others hrest connective
    obtain ⟨first, hfirst, hholds⟩ :=
      connective.holds_addedValues? truth (Item.member?_eq_ok item hfound).1
    refine ⟨first ++ values, ?_, hholds values rest hsame⟩
    rw [Items.keptValues?, hvalue, hfirst, hvalues]
    rfl

end

/-- An item without empty groups comes down to a member with its value. -/
theorem Item.value?_of_member? (truth : FieldClause → Bool) (hlists : schema.Lacks .array)
    (item : Item) {found : Option Member} (h : item.member? schema = .ok found)
    (hfull : ¬ HasEmptyGroup item.rules) :
    ∃ member, found = some member ∧
      item.value? (Criteria.clauseValue? schema truth) = some (member.toQuery.eval truth) := by
  have hcriteria := item.hasCriteria_of_full hfull
  obtain ⟨member, rfl⟩ := Option.isSome_iff_exists.mp ((Item.member?_eq_ok item h).1.mpr hcriteria)
  have hvalue := Item.keptValue?_of_member? truth hlists item h
  rw [item.keptValue?_of_hasCriteria] at hvalue
  · exact ⟨member, rfl, hvalue⟩
  · intro group hgroup _ inner hinner
    exact inner.hasCriteria_of_full fun hempty =>
      hfull (hempty.trans (Item.infix_of_groups item hgroup hinner))

/-- The document query of a rule list without empty groups has the value of the list as an infix
expression, under every assignment of truth values to field clauses. The list is such an expression,
and however it is read as one it has that value. -/
theorem Compiler.eval_documentQuery {compiler : Compiler} {rules : List Rule}
    {query : DocumentQuery} (truth : FieldClause → Bool) (hlists : compiler.schema.Lacks .array)
    (hfull : ¬ HasEmptyGroup rules) (h : compiler.documentQuery rules = .ok query) :
    (∃ item : Item, item.rules = rules) ∧ ∀ item : Item, item.rules = rules →
      item.value? (compiler.clauseValue? truth) = some (query.eval truth) := by
  obtain ⟨⟨⟩, hvalid, _⟩ := Outcome.bind_eq_ok_iff.mp h
  have horder := checkOrder_of_validate hvalid
  constructor
  · obtain ⟨groups, hread⟩ := Item.exists_read horder
    have hnone := hread.ne_nil (validate_eq_ok_iff.mp hvalid).1
    have hone := ((exists_documentQuery_iff hvalid hread).mp ⟨query, h⟩).2
    rw [hread.countP_eq_length hfull] at hone
    obtain ⟨item, rfl⟩ : ∃ item, groups = [item] :=
      List.length_eq_one_iff.mp (le_antisymm hone (List.length_pos_iff.mpr hnone))
    exact ⟨item, Item.rulesOf_single.symm.trans hread.2⟩
  · rintro item rfl
    rw [documentQuery_of_validate hvalid (Item.read_of_checkOrder horder)] at h
    obtain ⟨members, hmembers, hquery⟩ := Outcome.bind_eq_ok_iff.mp h
    obtain ⟨_, hnil, hmembers⟩ := Outcome.bind_eq_ok_iff.mp hmembers
    obtain ⟨found, hfound, hmembers⟩ := Outcome.bind_eq_ok_iff.mp hmembers
    obtain rfl := Except.ok.inj hnil
    obtain rfl : found.toList ++ [] = members := Except.ok.inj hmembers
    -- Conversion changes comparisons alone, so that no group of the changed item is empty either.
    have hchanged : ¬ HasEmptyGroup (item.map fun criteria =>
        criteria.converted compiler.schema compiler.settings false).rules := by
      rwa [Item.rules_map, hasEmptyGroup_map]
    obtain ⟨member, rfl, hvalue⟩ := Item.value?_of_member? truth hlists _ hfound hchanged
    obtain rfl : member.toQuery = query := Except.ok.inj hquery
    rw [← hvalue]
    refine (Item.value?_map item ?_).symm
    intro criteria hcriteria
    rw [clauseValue?, convert_of_validate compiler.settings false hvalid criteria hcriteria]
    rfl

/-- A comparison beside a group with a selection, when only the comparison is as asked. -/
theorem Compiler.eval_documentQuery_selection :
    let compiler : Compiler := ⟨⟨[("codes.value", .ofStrings), ("type", .ofStrings)]⟩, {}⟩
    let typed : Criteria := ⟨"type", .equal, .value (.text "book"), false⟩
    let coded : Criteria := ⟨"codes[kind:isbn].value", .equal, .value (.text "7"), false⟩
    let disc : Criteria := ⟨"type", .notEqual, .value (.text "disc"), false⟩
    let item : Item := .group none (.joined (.criteria typed) .or (.single
      (.group (some .and) (.joined (.criteria coded) .and (.single (.criteria disc))))))
    let truth : FieldClause → Bool := fun clause => clause.path == "type"
    let query : DocumentQuery := .or [
      .fields [.mk "type" (.compare .equal (.text "book"))],
      .and [
        .fields [.mk "codes" (.elementMatch (.fields [.mk "kind" (.equals (.text "isbn")),
          .mk "value" (.compare .equal (.text "7"))]))],
        .fields [.mk "type" (.compare .notEqual (.text "disc"))]]]
    compiler.schema.Lacks .array ∧ ¬ HasEmptyGroup item.rules ∧
      compiler.documentQuery item.rules = .ok query ∧
      item.value? (compiler.clauseValue? truth) = some true := by
  intro compiler typed coded disc item truth query
  have hlists : compiler.schema.Lacks .array := Schema.Lacks.of_entries (by decide)
  have hfull : ¬ HasEmptyGroup item.rules := by decide
  have hquery : compiler.documentQuery item.rules = .ok query := by cbv
  refine ⟨hlists, hfull, hquery, ?_⟩
  rw [(Compiler.eval_documentQuery truth hlists hfull hquery).2 item rfl]
  decide

end FilterRules
