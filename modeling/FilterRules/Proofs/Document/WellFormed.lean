import FilterRules.Document.Query
import FilterRules.Proofs.Document.Parts

/-!
# Well-formed document queries

A query is well formed when each query in it is sound: a conjunction or a disjunction has two parts at
least, and clauses of one query are some clauses on pairwise different fields. Reduction only ever has
members that are well formed as queries, since a connective needs two of them and a selection that
compares its own key has two queries instead of one. All documents are therefore asked for by a whole
query or not at all, and the JSON object of some clauses has a member for each of them.
-/

namespace FilterRules

/-- Whether a query, as it stands at its place, asks for what it seems to: some parts, and no field
twice. -/
def DocumentQuery.IsSound : DocumentQuery → Prop
  | .matchAll => False
  | .fields clauses => clauses ≠ [] ∧ (clauses.map FieldClause.path).Nodup
  | .and queries => 2 ≤ queries.length
  | .or queries => 2 ≤ queries.length

/-- Whether all queries in a query are sound. -/
def DocumentQuery.IsWellFormed (query : DocumentQuery) : Prop := ∀ part ∈ query.parts, part.IsSound

/-- Reduction keeps queries sound. -/
theorem DocumentQuery.isKept_isSound : IsKept IsSound where
  combine connective queries hmany := by cases connective <;> exact hmany
  elementMatch path query := ⟨by simp, by simp⟩
  seenFrom root clause _ := ⟨by simp, by simp⟩

/-- The clause of a criteria is well formed. -/
theorem Criteria.isWellFormed_clause {criteria : Criteria} {schema : Schema} {clause : FieldClause}
    (h : criteria.clause schema = .ok clause) : (DocumentQuery.fields [clause]).IsWellFormed := by
  refine DocumentQuery.isKept_isSound.forall_clause h ?_ ?_ ?_
  · exact fun _ _ _ => ⟨by simp, by simp⟩
  · exact fun _ _ _ => ⟨by simp, by simp⟩
  · exact fun _ _ _ _ hdiffer _ _ => ⟨by simp, by simpa [FieldClause.path] using hdiffer⟩

/-- A step of reduction keeps the members well formed. -/
theorem Piece.Step.isWellFormed {schema : Schema} {pieces next : List Piece}
    (hstep : Piece.Step schema pieces next)
    (h : ∀ member ∈ Piece.members pieces, member.toQuery.IsWellFormed) :
    ∀ member ∈ Piece.members next, member.toQuery.IsWellFormed :=
  DocumentQuery.isKept_isSound.forall_step hstep h

/-- The fields that clauses write to are their own. -/
theorem FieldClause.map_fst_writes (clauses : List FieldClause) :
    (FieldClause.writes clauses).map Prod.fst = clauses.map FieldClause.path := by
  induction clauses with
  | nil => rfl
  | cons clause clauses ih =>
    obtain ⟨path, condition⟩ := clause
    rw [FieldClause.writes, List.map_cons, List.map_cons, ih]
    rfl

/-- The query of a list, in order or not, asks for all documents or has sound queries only, and the JSON
object of the clauses of any query in it has exactly the members that the clauses write. -/
theorem DocumentQuery.isWellFormed_ofRules {schema : Schema} {rules : List Rule}
    {query : DocumentQuery} (h : DocumentQuery.ofRules rules schema = .ok query) :
    (query = .matchAll ∨ query.IsWellFormed) ∧
      ∀ clauses, .fields clauses ∈ query.parts → ∃ members,
        (DocumentQuery.fields clauses).toJson = .object members ∧
          members.Perm (FieldClause.writes clauses) := by
  obtain ⟨pieces, found, hpieces, hrun, rfl⟩ := DocumentQuery.exists_run_of_ofRules h
  obtain ⟨clauses, hclauses, hmembers⟩ := Rule.exists_clauses_of_pieces hpieces
  have hstart : ∀ member ∈ Piece.members pieces, member.toQuery.IsWellFormed := by
    rw [hmembers]
    refine List.forall_mem_map.mpr ?_
    exact Outcome.forall_mem_of_forall₂ hclauses fun _ _ hclause => Criteria.isWellFormed_clause hclause
  have hlast := Piece.Step.invariant (fun _ _ hstep hall => hstep.isWellFormed hall) hrun hstart
  have hshape : found.elim .matchAll Member.toQuery = .matchAll ∨
      (found.elim .matchAll Member.toQuery).IsWellFormed := by
    cases found with
    | none => exact Or.inl rfl
    | some member => exact Or.inr (hlast member List.mem_cons_self)
  refine ⟨hshape, fun clauses hpart => ⟨_, rfl, Dictionary.ofWrites_perm ?_⟩⟩
  rw [FieldClause.map_fst_writes]
  rcases hshape with hall | hformed
  · rw [hall] at hpart
    simp [DocumentQuery.parts] at hpart
  · exact (hformed _ hpart).2

/-- A selection that compares its own key, joined with a comparison below the list that it is made from. -/
theorem DocumentQuery.isWellFormed_ofRules_shop :
    let schema : Schema := ⟨[("shop", .nested), ("shop.prices", .nested)]⟩
    let kind : Criteria := ⟨"shop.kind", .equal, .value (.text "book"), false⟩
    let market : Criteria :=
      ⟨"shop.prices[market:trade].market", .notEqual, .value (.text "list"), false⟩
    let rules : List Rule := [.separator .opening, .criteria kind, .logical .or, .criteria market,
      .separator .closing]
    let query : DocumentQuery := .fields [.mk "shop" (.elementMatch (.or [
      .fields [.mk "kind" (.compare .equal (.text "book"))],
      .fields [.mk "prices" (.elementMatch (.and [.fields [.mk "market" (.equals (.text "trade"))],
        .fields [.mk "market" (.compare .notEqual (.text "list"))]]))]]))]
    DocumentQuery.ofRules rules schema = .ok query ∧ query.IsWellFormed ∧ query.parts.length = 7 ∧
      ∀ clauses, .fields clauses ∈ query.parts → ∃ members,
        (DocumentQuery.fields clauses).toJson = .object members ∧
          members.Perm (FieldClause.writes clauses) := by
  intro schema kind market rules query
  have hquery : DocumentQuery.ofRules rules schema = .ok query := by cbv
  obtain ⟨hshape, hjson⟩ := DocumentQuery.isWellFormed_ofRules hquery
  have hformed : query.IsWellFormed := hshape.resolve_left DocumentQuery.noConfusion
  exact ⟨hquery, hformed, rfl, hjson⟩

end FilterRules
