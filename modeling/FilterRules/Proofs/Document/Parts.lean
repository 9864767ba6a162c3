import FilterRules.Proofs.Document.Leaves

/-!
# The queries in a document query

The queries in a query are the query itself and all that stand inside it, also in a condition on an
element. Three things are enough for a property to hold of all of them, whatever the rules are: it
holds of the clauses that a comparison writes, it holds of joined queries when there are two of them at
least, and it holds of a clause on a list whatever is asked of an element. Reduction makes no others.
-/

namespace FilterRules

mutual

/-- The queries in a query, itself included, also those that a condition asks of an element. -/
def DocumentQuery.parts : DocumentQuery → List DocumentQuery
  | .matchAll => [.matchAll]
  | .fields clauses => .fields clauses :: FieldClause.parts clauses
  | .and queries => .and queries :: DocumentQuery.partsOf queries
  | .or queries => .or queries :: DocumentQuery.partsOf queries

/-- The queries in some queries. -/
def DocumentQuery.partsOf : List DocumentQuery → List DocumentQuery
  | [] => []
  | query :: queries => query.parts ++ DocumentQuery.partsOf queries

/-- The queries in some clauses. -/
def FieldClause.parts : List FieldClause → List DocumentQuery
  | [] => []
  | .mk _ (.elementMatch query) :: clauses => query.parts ++ FieldClause.parts clauses
  | .mk _ _ :: clauses => FieldClause.parts clauses

end

/-- The queries in some queries are those in each of them. -/
theorem DocumentQuery.partsOf_eq_flatMap (queries : List DocumentQuery) :
    DocumentQuery.partsOf queries = queries.flatMap DocumentQuery.parts := by
  induction queries with
  | nil => rfl
  | cons query queries ih => rw [DocumentQuery.partsOf, ih, List.flatMap_cons]

/-- Comparing clauses have no queries in them. -/
theorem FieldClause.parts_eq_nil {clauses : List FieldClause}
    (h : ∀ clause ∈ clauses, clause.Compares) : FieldClause.parts clauses = [] := by
  induction clauses with
  | nil => rfl
  | cons clause clauses ih =>
    obtain ⟨hclause, hclauses⟩ := List.forall_mem_cons.mp h
    obtain ⟨path, condition⟩ := clause
    cases condition with
    | elementMatch query => exact absurd rfl (hclause query)
    | _ => exact ih hclauses

/-- A clause has the same queries in it when it is seen from a list. -/
theorem FieldClause.parts_seenFrom (root : String) (clause : FieldClause) :
    FieldClause.parts [clause.seenFrom root] = FieldClause.parts [clause] := by
  obtain ⟨path, condition⟩ := clause
  cases condition <;> rfl

/-- Whether a literal is the one that the selection of a comparison compares its key with. -/
def Criteria.Selects (criteria : Criteria) (schema : Schema) (literal : Literal) : Prop :=
  ∃ array key value element found,
    AttributePath.parse? criteria.path = some (.filtered array key value element) ∧
      (AttributePath.filtered array key value element).emittedFilter schema = .ok found ∧
      literal = found.getD (.text value)

/-- What reduction keeps of the queries in a query: it holds of joined queries if there are two of them
at least, of a clause that asks for an element, and of a clause that is seen from a list if it does of
the clause itself. -/
structure DocumentQuery.IsKept (holds : DocumentQuery → Prop) : Prop where
  /-- Two queries at least are joined. -/
  combine : ∀ (connective : Connective) (queries : List DocumentQuery), 2 ≤ queries.length →
    holds (combine connective queries)
  /-- A clause asks for an element. -/
  elementMatch : ∀ path query, holds (.fields [.mk path (.elementMatch query)])
  /-- A clause is seen from a list. -/
  seenFrom : ∀ (root : String) (clause : FieldClause), holds (.fields [clause]) →
    holds (.fields [clause.seenFrom root])

namespace DocumentQuery.IsKept

variable {holds : DocumentQuery → Prop} {schema : Schema}

/-- What is kept holds of all queries in joined ones, if it does of those in each of them. -/
theorem forall_combine (hkept : IsKept holds) (connective : Connective)
    {queries : List DocumentQuery} (hmany : 2 ≤ queries.length)
    (h : ∀ query ∈ queries, ∀ part ∈ query.parts, holds part) :
    ∀ part ∈ (DocumentQuery.combine connective queries).parts, holds part := by
  have hinner : ∀ part ∈ partsOf queries, holds part := by
    intro part hpart
    rw [partsOf_eq_flatMap] at hpart
    obtain ⟨query, hquery, hpart⟩ := List.mem_flatMap.mp hpart
    exact h query hquery part hpart
  have hjoined := hkept.combine connective queries hmany
  cases connective <;> exact List.forall_mem_cons.mpr ⟨hjoined, hinner⟩

/-- What holds of comparing clauses holds of all queries in them. -/
theorem forall_compares {clauses : List FieldClause} (h : holds (.fields clauses))
    (hcompares : ∀ clause ∈ clauses, clause.Compares) :
    ∀ part ∈ (DocumentQuery.fields clauses).parts, holds part := by
  refine List.forall_mem_cons.mpr ⟨h, ?_⟩
  simp [FieldClause.parts_eq_nil hcompares]

/-- What is kept holds of all queries in a condition on an element, if it does of those that are asked
of the element. -/
theorem forall_elementMatch (hkept : IsKept holds) (path : String) {query : DocumentQuery}
    (h : ∀ part ∈ query.parts, holds part) :
    ∀ part ∈ (DocumentQuery.fields [.mk path (.elementMatch query)]).parts, holds part := by
  refine List.forall_mem_cons.mpr ⟨hkept.elementMatch path query, ?_⟩
  rwa [FieldClause.parts, FieldClause.parts, List.append_nil]

/-- What is kept holds of all queries in a clause that is seen from a list, if it does of those in the
clause. -/
theorem forall_seenFrom (hkept : IsKept holds) (root : String) {clause : FieldClause}
    (h : ∀ part ∈ (DocumentQuery.fields [clause]).parts, holds part) :
    ∀ part ∈ (DocumentQuery.fields [clause.seenFrom root]).parts, holds part := by
  obtain ⟨hself, hinner⟩ := List.forall_mem_cons.mp h
  refine List.forall_mem_cons.mpr ⟨hkept.seenFrom root clause hself, ?_⟩
  rwa [FieldClause.parts_seenFrom]

/-- What is kept holds of all queries in the query for an element, also when the compared field is the
key itself. -/
theorem forall_selectElement (hkept : IsKept holds) {key field : String} {value : Literal}
    {condition : Condition} (hcondition : ∀ query, condition ≠ .elementMatch query)
    (hselector : holds (.fields [.mk key (.equals value)]))
    (hcompared : holds (.fields [.mk field condition]))
    (hboth : key ≠ field → holds (.fields [.mk key (.equals value), .mk field condition])) :
    ∀ part ∈ (selectElement key value field condition).parts, holds part := by
  have hfirst : (FieldClause.mk key (.equals value)).Compares := fun _ => Condition.noConfusion
  have hsecond : (FieldClause.mk field condition).Compares := hcondition
  rw [selectElement]
  split
  case isTrue =>
    have hone := forall_compares hselector (by simpa using hfirst)
    have hother := forall_compares hcompared (by simpa using hsecond)
    exact hkept.forall_combine .and (by simp) (by simpa using ⟨hone, hother⟩)
  case isFalse hdiffer =>
    exact forall_compares (hboth hdiffer) (by simpa using ⟨hfirst, hsecond⟩)

/-- What is kept holds of all queries in the clause of a comparison, if it does of its condition on any
field, of its selection, and of the two of them on different fields. -/
theorem forall_clause (hkept : IsKept holds) {criteria : Criteria} {clause : FieldClause}
    (h : criteria.clause schema = .ok clause)
    (hcompared : ∀ field condition, criteria.condition = .ok condition →
      holds (.fields [.mk field condition]))
    (hselector : ∀ key literal, criteria.Selects schema literal →
      holds (.fields [.mk key (.equals literal)]))
    (hboth : ∀ key literal field condition, key ≠ field → criteria.Selects schema literal →
      criteria.condition = .ok condition →
      holds (.fields [.mk key (.equals literal), .mk field condition])) :
    ∀ part ∈ (DocumentQuery.fields [clause]).parts, holds part := by
  obtain ⟨condition, hcondition, h⟩ := Outcome.bind_eq_ok_iff.mp h
  have hcompares := Criteria.condition_ne_elementMatch hcondition
  obtain ⟨path, hpath, h⟩ := Outcome.bind_eq_ok_iff.mp h
  cases path with
  | plain segments =>
    obtain rfl := Except.ok.inj h
    have hclause : (FieldClause.mk criteria.path condition).Compares := hcompares
    exact forall_compares (hcompared _ _ hcondition) (by simpa using hclause)
  | filtered array key value element =>
    obtain ⟨found, hfound, h⟩ := Outcome.bind_eq_ok_iff.mp h
    obtain rfl := Except.ok.inj h
    have hselects : criteria.Selects schema (found.getD (.text value)) :=
      ⟨array, key, value, element, found, AttributePath.parseAt_eq_ok_iff.mp hpath, hfound, rfl⟩
    exact hkept.forall_elementMatch _ (hkept.forall_selectElement hcompares
      (hselector _ _ hselects) (hcompared _ _ hcondition)
      fun hdiffer => hboth _ _ _ _ hdiffer hselects hcondition)

/-- What is kept holds of all queries in what members are joined to, if it does of those in each of
them. -/
theorem forall_resolveGroup (hkept : IsKept holds) (connective : Connective) {members : List Member}
    (hmany : 2 ≤ members.length)
    (h : ∀ member ∈ members, ∀ part ∈ member.toQuery.parts, holds part) :
    ∀ part ∈ (resolveGroup connective members schema).parts, holds part := by
  rcases resolveGroup_cases connective members schema with
    hcombine | ⟨clauses, root, rfl, _, _, hjoined⟩
  · rw [hcombine]
    exact hkept.forall_combine connective (by simpa using hmany) (List.forall_mem_map.mpr h)
  · have hclauses := List.forall_mem_map.mp h
    rw [hjoined]
    refine hkept.forall_elementMatch root (hkept.forall_combine connective (by simpa using hmany) ?_)
    exact List.forall_mem_map.mpr fun clause hclause =>
      hkept.forall_seenFrom root (hclauses clause hclause)

/-- What is kept holds of all queries in what members come down to, if it does of those in each of
them. -/
theorem forall_joined (hkept : IsKept holds) {connective : Option Connective} {members : List Member}
    {found : Option Member} (h : Member.joined schema connective members = .ok found)
    (hmembers : ∀ member ∈ members, ∀ part ∈ member.toQuery.parts, holds part) :
    ∀ member ∈ found, ∀ part ∈ member.toQuery.parts, holds part := by
  cases connective with
  | none =>
    match members, h with
    | [], h =>
      obtain rfl : none = found := Except.ok.inj h
      simp
    | [member], h =>
      obtain rfl : some member = found := Except.ok.inj h
      simpa using hmembers
    | _ :: _ :: _, h => simp [Member.joined] at h
  | some connective =>
    have hmany := (Member.joined_eq_ok h).2 (by simp)
    rw [Member.joined, if_neg (by omega)] at h
    obtain rfl := Except.ok.inj h
    rintro member hmember
    obtain rfl := Option.some.inj hmember
    exact hkept.forall_resolveGroup connective hmany hmembers

/-- A step of reduction keeps what is kept. -/
theorem forall_step (hkept : IsKept holds) {pieces next : List Piece}
    (hstep : Piece.Step schema pieces next)
    (h : ∀ member ∈ Piece.members pieces, ∀ part ∈ member.toQuery.parts, holds part) :
    ∀ member ∈ Piece.members next, ∀ part ∈ member.toQuery.parts, holds part := by
  cases hstep with
  | @group before after inner found _ _ hfound =>
    obtain ⟨connective, _, hjoined⟩ := Outcome.bind_eq_ok_iff.mp hfound
    have hparts : Piece.members (before ++ Piece.opening :: (inner ++ Piece.closing :: after)) =
        Piece.members before ++ (Piece.members inner ++ Piece.members after) := by
      simp [Piece.members_append, Piece.members]
    rw [hparts] at h
    obtain ⟨hbefore, hrest⟩ := List.forall_mem_append.mp h
    obtain ⟨hinner, hafter⟩ := List.forall_mem_append.mp hrest
    have hmember := hkept.forall_joined hjoined hinner
    rw [Piece.members_append, Piece.members_append]
    refine List.forall_mem_append.mpr ⟨List.forall_mem_append.mpr ⟨hbefore, ?_⟩, hafter⟩
    cases found with
    | none => simp [Piece.members]
    | some member => simpa [Piece.members] using hmember

/-- A query asks for all documents, or what is kept holds of all queries in it, if it does of those in
the clauses of the comparisons. -/
theorem forall_ofRules (hkept : IsKept holds) {rules : List Rule} {query : DocumentQuery}
    (h : ofRules rules schema = .ok query)
    (hclauses : ∀ criteria clause, Rule.criteria criteria ∈ rules →
      criteria.clause schema = .ok clause →
      ∀ part ∈ (DocumentQuery.fields [clause]).parts, holds part) :
    query = .matchAll ∨ ∀ part ∈ query.parts, holds part := by
  obtain ⟨pieces, found, hpieces, hrun, rfl⟩ := exists_run_of_ofRules h
  obtain ⟨clauses, hlaid, hmembers⟩ := Rule.exists_clauses_of_pieces hpieces
  have hstart : ∀ member ∈ Piece.members pieces, ∀ part ∈ member.toQuery.parts, holds part := by
    rw [hmembers]
    refine List.forall_mem_map.mpr fun clause hclause => ?_
    obtain ⟨criteria, hcriteria, hlaid⟩ := Outcome.exists_mem_of_forall₂ hlaid.flip hclause
    exact hclauses criteria clause (Rule.mem_criteriaOf.mp hcriteria) hlaid
  have hlast := Piece.Step.invariant (fun _ _ hstep hall => hkept.forall_step hstep hall) hrun hstart
  cases found with
  | none => exact Or.inl rfl
  | some member => exact Or.inr (hlast member List.mem_cons_self)

end DocumentQuery.IsKept

end FilterRules
