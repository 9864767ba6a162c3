import FilterRules.Proofs.Document.Acceptance
import FilterRules.Proofs.Schema.Grouping

/-!
# When a group comes down to a clause

A group without a connective comes down to what its only item does. An item therefore comes down to
the clause of a comparison exactly when that comparison is the only one in it, however many groups
stand around it; any other item with a comparison comes down to a joined query.
-/

namespace FilterRules

variable {schema : Schema}

/-- The rules of an item have a criteria if the item has one. -/
theorem Item.hasCriteria_le_countP (item : Item) :
    (if item.hasCriteria then 1 else 0) ≤ item.rules.countP Rule.isCriteria := by
  by_cases hcriteria : item.hasCriteria
  · have hpos : 0 < item.rules.countP Rule.isCriteria := by
      rw [List.countP_pos_iff, ← List.any_eq_true]
      exact hcriteria
    simpa [hcriteria] using hpos
  · simp [hcriteria]

/-- The rules of items have a criteria for each item with a criteria. -/
theorem Items.countP_hasCriteria_le (items : Items) :
    items.toList.countP Item.hasCriteria ≤ items.rules.countP Rule.isCriteria := by
  induction items using Items.toList.induct with
  | case1 item =>
    have hitem := item.hasCriteria_le_countP
    simpa only [Items.toList, Items.rules, List.countP_singleton] using hitem
  | case2 item connective others ih =>
    have hitem := item.hasCriteria_le_countP
    simp only [Items.toList, Items.rules, List.countP_cons, List.countP_append]
    omega

/-- The rules of a group have the criteria of its items. -/
theorem Item.countP_isCriteria_group (lead : Option Connective) (items : Items) :
    (Item.group lead items).rules.countP Rule.isCriteria =
      items.rules.countP Rule.isCriteria := by
  cases lead <;> simp [Item.rules, Rule.isCriteria]

/-- A group with a single item and no connective comes down to what the item does. -/
theorem Item.member?_single (item : Item) :
    (Item.group none (.single item)).member? schema = item.member? schema := by
  rw [Item.member?, Items.members]
  cases item.member? schema with
  | error error => rfl
  | ok found => cases found <;> rfl

/-- A group with a connective comes down to a joined query, and has several criteria. -/
theorem Item.member?_of_connectives {lead : Option Connective} {items : Items} {member : Member}
    (h : (Item.group lead items).member? schema = .ok (some member))
    (hne : lead.toList ++ items.connectives ≠ []) :
    (∃ query, member = .query query) ∧
      1 < (Item.group lead items).rules.countP Rule.isCriteria := by
  have hsound := (Item.member?_eq_ok _ h).2 _ List.mem_cons_self
  have hmany := hsound.2 hne
  have hcount := items.countP_hasCriteria_le
  rw [Item.countP_isCriteria_group]
  refine ⟨?_, by simp only at hmany; omega⟩
  rw [Item.member?] at h
  obtain ⟨members, _, h⟩ := Outcome.bind_eq_ok_iff.mp h
  obtain ⟨connective, hagreed, h⟩ := Outcome.bind_eq_ok_iff.mp h
  cases connective with
  | none => exact absurd ((Connective.agreed_eq_ok hagreed).1.mp rfl) hne
  | some connective =>
    rw [Member.joined] at h
    split at h
    case isTrue => simp at h
    case isFalse =>
      obtain rfl := Option.some.inj (Except.ok.inj h)
      exact ⟨_, rfl⟩

/-- An item comes down to a clause when it has a single criteria, and to a joined query otherwise. -/
theorem Item.member?_clause_iff : (item : Item) → {member : Member} →
    item.member? schema = .ok (some member) →
    ((∃ clause, member = .clause clause) ↔ item.rules.countP Rule.isCriteria = 1)
  | .criteria single, member, h => by
    rw [Item.member?] at h
    obtain ⟨clause, _, hfound⟩ := Outcome.map_eq_ok_iff.mp h
    obtain rfl := Option.some.inj hfound
    simp [Item.rules, Rule.isCriteria]
  | .empty, member, h => by simp [Item.member?] at h
  | .group none (.single item), member, h => by
    rw [Item.member?_single] at h
    rw [Item.countP_isCriteria_group, Items.rules]
    exact Item.member?_clause_iff item h
  | .group (some lead) (.single item), member, h => by
    obtain ⟨⟨query, rfl⟩, hmany⟩ := Item.member?_of_connectives h (by simp)
    simp only [reduceCtorEq, exists_false, false_iff]
    omega
  | .group lead (.joined item connective others), member, h => by
    obtain ⟨⟨query, rfl⟩, hmany⟩ := Item.member?_of_connectives h (by simp [Items.connectives])
    simp only [reduceCtorEq, exists_false, false_iff]
    omega

/-- Members that all are clauses are those clauses. -/
theorem Member.clauses?_eq_some {members : List Member} {clauses : List FieldClause}
    (h : Member.clauses? members = some clauses) : members = clauses.map .clause := by
  induction members generalizing clauses with
  | nil =>
    obtain rfl : [] = clauses := Option.some.inj h
    rfl
  | cons member members ih =>
    cases member with
    | clause single =>
      obtain ⟨others, hothers, rfl⟩ := Option.map_eq_some_iff.mp h
      rw [ih hothers, List.map_cons]
    | query joined => simp [Member.clauses?] at h

/-- Members are clauses exactly if they are those clauses side by side. -/
theorem Member.clauses?_eq_some_iff {members : List Member} {clauses : List FieldClause} :
    Member.clauses? members = some clauses ↔ members = clauses.map .clause := by
  refine ⟨clauses?_eq_some, ?_⟩
  rintro rfl
  induction clauses with
  | nil => rfl
  | cons clause clauses ih => simp [clauses?, ih]

/-- A combination is no clause. -/
theorem DocumentQuery.combine_ne_fields (connective : Connective) (queries : List DocumentQuery)
    (clauses : List FieldClause) : combine connective queries ≠ .fields clauses := by
  cases connective <;> simp [combine]

/-- A group is joined as it is, or its members are clauses with fields below one list and it becomes a
clause on that list. -/
theorem resolveGroup_cases (connective : Connective) (members : List Member) (schema : Schema) :
    resolveGroup connective members schema = .combine connective (members.map Member.toQuery) ∨
      ∃ clauses : List FieldClause, ∃ root, members = clauses.map .clause ∧
        schema.groupingRoot? .array (clauses.map FieldClause.path) = some root ∧
        (∀ clause ∈ clauses, root ∈ Dotted.ancestors clause.path) ∧
        resolveGroup connective members schema = .fields [.mk root (.elementMatch
          (.combine connective (clauses.map fun clause => .fields [clause.seenFrom root])))] := by
  rw [resolveGroup]
  cases hclauses : Member.clauses? members with
  | none => exact Or.inl rfl
  | some clauses =>
    cases hroot : schema.groupingRoot? .array (clauses.map FieldClause.path) with
    | none => exact Or.inl (by simp only [hroot])
    | some root =>
      have habove := List.forall_mem_map.mp (Schema.groupingRoot?_mem_ancestors hroot)
      exact Or.inr ⟨clauses, root, Member.clauses?_eq_some hclauses, hroot, habove,
        by simp only [hroot]⟩

/-- The queries of clauses are those clauses. -/
theorem Member.map_toQuery_clause (clauses : List FieldClause) :
    (clauses.map Member.clause).map toQuery = clauses.map fun clause => .fields [clause] := by
  rw [List.map_map]
  rfl

/-- The clauses of queries are known from the queries. -/
theorem FieldClause.map_fields_injective :
    Function.Injective (List.map fun clause : FieldClause => DocumentQuery.fields [clause]) := by
  refine List.map_injective_iff.mpr fun first second hsame => ?_
  simpa using hsame

end FilterRules
