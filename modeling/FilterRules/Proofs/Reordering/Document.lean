import FilterRules.Proofs.Document.Clause
import FilterRules.Proofs.Reordering.Rules
import FilterRules.Proofs.Spec.Conjunction

/-!
# Document queries of reordered rules

The document query of a reordered list is the query with the lists below its conjunctions and
disjunctions in another order, also inside the conditions on the elements of a list. Which groups are
joined to such a condition, and on which list, does not change: the members of a group are clauses in any
order or in none, and clauses share the same list in any order.
-/

namespace FilterRules

open DocumentQuery (combine)

mutual

/-- Queries with the lists below conjunctions and disjunctions in another order, at any depth. -/
inductive DocumentQuery.Reordered : DocumentQuery → DocumentQuery → Prop
  /-- A query stays as it is. -/
  | same (query : DocumentQuery) : DocumentQuery.Reordered query query
  /-- Clauses are reordered one by one, and keep their places. -/
  | fields {clauses others : List FieldClause}
      (hclauses : List.Forall₂ FieldClause.Reordered clauses others) :
      DocumentQuery.Reordered (.fields clauses) (.fields others)
  /-- The queries of a conjunction change their places, and are reordered themselves. -/
  | and {queries others : List DocumentQuery}
      (hqueries : ReorderedBy DocumentQuery.Reordered queries others) :
      DocumentQuery.Reordered (.and queries) (.and others)
  /-- So do the queries of a disjunction. -/
  | or {queries others : List DocumentQuery}
      (hqueries : ReorderedBy DocumentQuery.Reordered queries others) :
      DocumentQuery.Reordered (.or queries) (.or others)

/-- Clauses with a reordered query for the elements of a list. -/
inductive FieldClause.Reordered : FieldClause → FieldClause → Prop
  /-- A clause stays as it is. -/
  | same (clause : FieldClause) : FieldClause.Reordered clause clause
  /-- The query for the elements of a list is reordered. -/
  | elementMatch (path : String) {query other : DocumentQuery}
      (hquery : DocumentQuery.Reordered query other) :
      FieldClause.Reordered (.mk path (.elementMatch query)) (.mk path (.elementMatch other))

end

/-- Queries in another order that are joined by a connective. -/
theorem DocumentQuery.Reordered.combine (connective : Connective) {queries others : List DocumentQuery}
    (h : ReorderedBy DocumentQuery.Reordered queries others) :
    (DocumentQuery.combine connective queries).Reordered (DocumentQuery.combine connective others) := by
  cases connective with
  | and => exact .and h
  | or => exact .or h

/-- Members of a group with reordered queries. -/
inductive Member.Reordered : Member → Member → Prop
  /-- A clause stays as it is. -/
  | clause (single : FieldClause) : Member.Reordered (.clause single) (.clause single)
  /-- A query is reordered. -/
  | query {joined other : DocumentQuery} (hquery : joined.Reordered other) :
      Member.Reordered (.query joined) (.query other)

namespace Member.Reordered

variable {member other : Member} {members others : List Member}

/-- The query of a reordered member is reordered. -/
theorem toQuery (h : member.Reordered other) : member.toQuery.Reordered other.toQuery := by
  cases h with
  | clause single => exact .same _
  | query hquery => exact hquery

/-- Reordered members are clauses alike, in another order. -/
theorem clauses? (h : ReorderedBy Member.Reordered members others) :
    Option.Rel List.Perm (Member.clauses? members) (Member.clauses? others) := by
  refine h.perm_found (fun _ _ => Member.clauses?_eq_some_iff) ?_
  rintro clause member (hmember | hmember) <;> cases hmember <;> rfl

/-- A group of reordered members comes down to a reordered query: its members share a list in any order
or in none. -/
theorem resolveGroup (connective : Connective) (schema : Schema)
    (h : ReorderedBy Member.Reordered members others) :
    (FilterRules.resolveGroup connective members schema).Reordered
      (FilterRules.resolveGroup connective others schema) := by
  have hqueries : ReorderedBy DocumentQuery.Reordered (members.map Member.toQuery)
      (others.map Member.toQuery) := h.map fun _ _ hmember => hmember.toQuery
  have hclauses := clauses? h
  rw [FilterRules.resolveGroup, FilterRules.resolveGroup]
  generalize Member.clauses? members = found at hclauses
  generalize Member.clauses? others = found' at hclauses
  cases hclauses with
  | none => exact .combine connective hqueries
  | @some clauses clauses' hperm =>
    have hroot := schema.groupingRoot?_perm .array (hperm.map FieldClause.path)
    simp only [hroot]
    cases schema.groupingRoot? .array (clauses'.map FieldClause.path) with
    | none => exact .combine connective hqueries
    | some root =>
      have hinner : ReorderedBy DocumentQuery.Reordered
          (clauses.map fun clause => .fields [clause.seenFrom root])
          (clauses'.map fun clause => .fields [clause.seenFrom root]) :=
        .of_perm .same (hperm.map _)
      exact .fields (.cons (.elementMatch root (.combine connective hinner)) .nil)

/-- A group of reordered members comes down to a reordered member, or has the same fault. -/
theorem joined (connective : Option Connective) (schema : Schema)
    (h : ReorderedBy Member.Reordered members others) :
    Outcome.Related (Option.Rel Member.Reordered) (Member.joined schema connective members)
      (Member.joined schema connective others) := by
  cases connective with
  | none =>
    match members, others, h, h.length_eq with
    | [], [], _, _ => exact .ok .none
    | [_], [_], h, _ => exact .ok (.some h.single)
    | _ :: _ :: _, _ :: _ :: _, _, _ => exact .error _
  | some connective =>
    rw [Member.joined, Member.joined, h.length_eq]
    split
    · exact .error _
    · exact .ok (.some (.query (resolveGroup connective schema h)))

end Member.Reordered

/-- A reordered item comes down to a reordered member, or to nothing. -/
theorem Item.Reordered.exists_member {schema : Schema} {item other : Item} {found : Option Member}
    (h : item.Reordered other) (hfound : item.member? schema = .ok found) :
    ∃ found', other.member? schema = .ok found' ∧ Option.Rel Member.Reordered found found' := by
  refine Item.Reordered.induct ?criteria ?empty ?group h found hfound
  case criteria =>
    intro criteria found hfound
    refine ⟨found, hfound, ?_⟩
    rw [Item.member?] at hfound
    obtain ⟨clause, _, rfl⟩ := Outcome.map_eq_ok_iff.mp hfound
    exact .some (.clause clause)
  case empty =>
    intro found hfound
    obtain rfl : none = found := Except.ok.inj hfound
    exact ⟨none, rfl, .none⟩
  case group =>
    intro lead items others hconnectives hitems found hfound
    rw [Item.member?] at hfound ⊢
    obtain ⟨members, hmembers, hfound⟩ := Outcome.bind_eq_ok_iff.mp hfound
    obtain ⟨connective, hagreed, hfound⟩ := Outcome.bind_eq_ok_iff.mp hfound
    -- A fault of an item ends the group wherever the item stands, so that only results are followed.
    obtain ⟨founds, hfounds, rfl⟩ := (Items.members_eq_ok_iff items).mp hmembers
    obtain ⟨founds', hfounds', hreordered⟩ := hitems.exists_results (fun _ _ hitem => hitem) hfounds
    have hothers := (Items.members_eq_ok_iff others).mpr ⟨founds', hfounds', rfl⟩
    have hjoined := Member.Reordered.joined connective schema hreordered.flatMap_toList
    rw [hfound] at hjoined
    obtain ⟨found', hfound', hsame⟩ := hjoined.exists_ok
    refine ⟨found', ?_, hsame⟩
    rw [hothers, Outcome.ok_bind, Connective.agreed_perm (hconnectives.append_left _) hagreed,
      Outcome.ok_bind, hfound']

namespace Compiler

variable {compiler : Compiler} {item other : Item}

/-- A reordered list has a reordered document query. -/
theorem exists_documentQuery_of_reordered {query : DocumentQuery} (h : item.Reordered other)
    (hquery : compiler.documentQuery item.rules = .ok query) :
    ∃ query', compiler.documentQuery other.rules = .ok query' ∧ query.Reordered query' := by
  have hvalid := validate_of_documentQuery ⟨query, hquery⟩
  rw [documentQuery_item hvalid] at hquery
  obtain ⟨found, hfound, rfl⟩ := Outcome.map_eq_ok_iff.mp hquery
  obtain ⟨found', hfound', hsame⟩ := (h.map _).exists_member hfound
  refine ⟨(found'.map Member.toQuery).getD .matchAll, ?_, ?_⟩
  · rw [documentQuery_item ((h.validate_iff _).mp hvalid)]
    exact Outcome.map_eq_ok_iff.mpr ⟨found', hfound', rfl⟩
  · cases hsame with
    | none => exact .same _
    | some hmember => exact hmember.toQuery

end Compiler

end FilterRules
