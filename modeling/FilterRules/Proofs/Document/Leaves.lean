import FilterRules.Proofs.Document.Clause
import FilterRules.Proofs.Document.Rewriting
import FilterRules.Proofs.Schema.Grouping

/-!
# The leaves of a document query

The leaves of a query are its comparing clauses from the first to the last one, each with the full path
of its field: a clause inside a condition on an element has the path of the list in front of its own.
Whatever a list of rules looks like, if it has a query at all then the leaves of that query are those of
its comparisons, in their order. A group that gives way to its members joined keeps their leaves, also
where they are seen from a list above them, since a path is the list and what it is seen as from there.
-/

namespace FilterRules

mutual

/-- The comparing clauses of a query, with the path of what the query is asked of in front of theirs. -/
def DocumentQuery.clausesFrom (front : String) : DocumentQuery → List FieldClause
  | .matchAll => []
  | .fields clauses => FieldClause.allFrom front clauses
  | .and queries => DocumentQuery.allFrom front queries
  | .or queries => DocumentQuery.allFrom front queries

/-- The comparing clauses of some queries. -/
def DocumentQuery.allFrom (front : String) : List DocumentQuery → List FieldClause
  | [] => []
  | query :: queries => query.clausesFrom front ++ DocumentQuery.allFrom front queries

/-- The comparing clauses among some clauses and inside them. -/
def FieldClause.allFrom (front : String) : List FieldClause → List FieldClause
  | [] => []
  | .mk path (.elementMatch query) :: clauses =>
    query.clausesFrom (front ++ path ++ ".") ++ FieldClause.allFrom front clauses
  | .mk path condition :: clauses =>
    .mk (front ++ path) condition :: FieldClause.allFrom front clauses

end

/-- The leaves of a query: its comparing clauses, with the full paths of their fields. -/
def DocumentQuery.leaves (query : DocumentQuery) : List FieldClause := query.clausesFrom ""

/-- The leaves of a clause: the clause itself, or those of the query that it asks of an element. -/
def FieldClause.leaves (clause : FieldClause) : List FieldClause := FieldClause.allFrom "" [clause]

/-- The comparing clauses of some queries are those of each of them. -/
theorem DocumentQuery.allFrom_eq_flatMap (front : String) (queries : List DocumentQuery) :
    DocumentQuery.allFrom front queries = queries.flatMap (·.clausesFrom front) := by
  induction queries with
  | nil => rfl
  | cons query queries ih => rw [DocumentQuery.allFrom, ih, List.flatMap_cons]

/-- The comparing clauses of joined queries are those of each of them. -/
theorem DocumentQuery.clausesFrom_combine (front : String) (connective : Connective)
    (queries : List DocumentQuery) :
    (combine connective queries).clausesFrom front = queries.flatMap (·.clausesFrom front) := by
  cases connective <;> exact allFrom_eq_flatMap front queries

/-- Whether a clause compares values of its field itself. -/
def FieldClause.Compares (clause : FieldClause) : Prop :=
  ∀ query, clause.condition ≠ .elementMatch query

/-- The condition of a criteria is a comparison with its literal or its literals, or a pattern. -/
theorem Criteria.condition_cases {criteria : Criteria} {condition : Condition}
    (h : criteria.condition = .ok condition) :
    (∃ op literal, criteria.scalar = .ok literal ∧ condition = .compare op literal) ∨
      (∃ op literals, criteria.several = .ok literals ∧ condition = .set op literals) ∨
        ∃ expression caseInsensitive, condition = .pattern expression caseInsensitive := by
  cases hrelationship : criteria.relationship <;> rw [Criteria.condition, hrelationship] at h
  case oneOf | noneOf | allOf =>
    obtain ⟨literals, hliterals, rfl⟩ := Outcome.map_eq_ok_iff.mp h
    exact Or.inr (Or.inl ⟨_, literals, hliterals, rfl⟩)
  case like | startsWith =>
    obtain ⟨_, _, rfl⟩ := Outcome.map_eq_ok_iff.mp h
    exact Or.inr (Or.inr ⟨_, _, rfl⟩)
  all_goals
    obtain ⟨literal, hliteral, rfl⟩ := Outcome.map_eq_ok_iff.mp h
    exact Or.inl ⟨_, literal, hliteral, rfl⟩

/-- A criteria puts a comparing condition on its field. -/
theorem Criteria.condition_ne_elementMatch {criteria : Criteria} {condition : Condition}
    (h : criteria.condition = .ok condition) (query : DocumentQuery) :
    condition ≠ .elementMatch query := by
  rcases Criteria.condition_cases h with ⟨_, _, _, rfl⟩ | ⟨_, _, _, rfl⟩ | ⟨_, _, rfl⟩ <;> simp

/-- A comparing clause is its only leaf. -/
theorem FieldClause.Compares.leaves {clause : FieldClause} (h : clause.Compares) :
    clause.leaves = [clause] := by
  obtain ⟨path, condition⟩ := clause
  cases condition with
  | elementMatch query => exact absurd rfl (h query)
  | _ => simp [FieldClause.leaves, FieldClause.allFrom]

/-- A clause that is seen from a list above its field has the same leaves below that list. -/
theorem FieldClause.allFrom_seenFrom {clause : FieldClause} {root : String}
    (hroot : root ∈ Dotted.ancestors clause.path) :
    FieldClause.allFrom (root ++ ".") [clause.seenFrom root] = clause.leaves := by
  obtain ⟨path, condition⟩ := clause
  have hpath : root ++ "." ++ Dotted.relativeTo path root = path := Dotted.append_relativeTo hroot
  cases condition <;> simp [leaves, seenFrom, allFrom, FieldClause.path, condition, hpath]

/-- The leaves of members, as queries. -/
def Member.leaves (members : List Member) : List FieldClause :=
  members.flatMap fun member => member.toQuery.leaves

/-- The leaves of members that are clauses are those of the clauses. -/
theorem Member.leaves_map_clause (clauses : List FieldClause) :
    Member.leaves (clauses.map .clause) = clauses.flatMap FieldClause.leaves := by
  rw [Member.leaves, List.flatMap_map]
  rfl

/-- Members that are joined keep their leaves. -/
theorem leaves_resolveGroup (connective : Connective) (members : List Member) (schema : Schema) :
    (resolveGroup connective members schema).leaves = Member.leaves members := by
  rcases resolveGroup_cases connective members schema with
    hcombine | ⟨clauses, root, rfl, _, habove, hjoined⟩
  · rw [hcombine, DocumentQuery.leaves, DocumentQuery.clausesFrom_combine, List.flatMap_map]
    rfl
  · have hseen : clauses.flatMap (fun clause =>
        FieldClause.allFrom (root ++ ".") [clause.seenFrom root]) =
        clauses.flatMap FieldClause.leaves :=
      List.flatMap_congr fun clause hclause => FieldClause.allFrom_seenFrom (habove clause hclause)
    rw [hjoined, Member.leaves_map_clause, ← hseen]
    simp only [DocumentQuery.leaves, DocumentQuery.clausesFrom, FieldClause.allFrom,
      DocumentQuery.clausesFrom_combine, List.flatMap_map, String.empty_append, List.append_nil]

/-- Members keep their leaves in what they come down to. -/
theorem Member.leaves_joined {schema : Schema} {connective : Option Connective}
    {members : List Member} {found : Option Member}
    (h : joined schema connective members = .ok found) :
    Member.leaves found.toList = Member.leaves members := by
  cases connective with
  | none =>
    match members, h with
    | [], h =>
      obtain rfl : none = found := Except.ok.inj h
      rfl
    | [member], h =>
      obtain rfl : some member = found := Except.ok.inj h
      rfl
    | _ :: _ :: _, h => simp [joined] at h
  | some connective =>
    rw [joined] at h
    split at h
    case isTrue => simp at h
    case isFalse =>
      obtain rfl := Except.ok.inj h
      rw [← leaves_resolveGroup connective members schema, Option.toList_some, Member.leaves,
        List.flatMap_singleton, Member.toQuery]

/-- The leaves of the members among some pieces. -/
def Piece.leaves (pieces : List Piece) : List FieldClause := Member.leaves (Piece.members pieces)

/-- The leaves of pieces in two parts. -/
theorem Piece.leaves_append (front back : List Piece) :
    Piece.leaves (front ++ back) = Piece.leaves front ++ Piece.leaves back := by
  rw [leaves, members_append, Member.leaves, List.flatMap_append]
  rfl

/-- A step of reduction keeps the leaves. -/
theorem Piece.Step.leaves_eq {schema : Schema} {pieces next : List Piece}
    (h : Piece.Step schema pieces next) : Piece.leaves next = Piece.leaves pieces := by
  cases h with
  | @group before after inner found _ _ hfound =>
    obtain ⟨connective, _, hjoined⟩ := Outcome.bind_eq_ok_iff.mp hfound
    have hinner : Piece.leaves (found.map Piece.member).toList = Piece.leaves inner := by
      rw [Piece.leaves, Piece.leaves, ← Member.leaves_joined hjoined]
      cases found <;> rfl
    have hgroup : Piece.leaves (Piece.opening :: (inner ++ Piece.closing :: after)) =
        Piece.leaves inner ++ Piece.leaves after := Piece.leaves_append inner (Piece.closing :: after)
    rw [Piece.leaves_append, Piece.leaves_append, Piece.leaves_append, hinner, hgroup,
      List.append_assoc]

/-- The members among the pieces of rules are the clauses of the comparisons. -/
theorem Rule.exists_clauses_of_pieces {schema : Schema} {rules : List Rule} {pieces : List Piece}
    (h : List.Forall₂ (Rule.Laid schema) rules pieces) :
    ∃ clauses, List.Forall₂ (fun criteria clause => criteria.clause schema = .ok clause)
      (Rule.criteriaOf rules) clauses ∧ Piece.members pieces = clauses.map .clause := by
  induction h with
  | nil => exact ⟨[], .nil, rfl⟩
  | cons hlaid _ ih =>
    obtain ⟨clauses, hclauses, hmembers⟩ := ih
    cases hlaid with
    | opening => exact ⟨clauses, hclauses, hmembers⟩
    | closing => exact ⟨clauses, hclauses, hmembers⟩
    | join connective => exact ⟨clauses, hclauses, hmembers⟩
    | @criteria criteria clause hclause =>
      exact ⟨clause :: clauses, .cons hclause hclauses, by rw [Piece.members, hmembers, List.map_cons]⟩

/-- The leaves of the query of a list, in order or not, are those of the clauses of its comparisons, from
the first comparison to the last. -/
theorem DocumentQuery.leaves_ofRules {schema : Schema} {rules : List Rule} {query : DocumentQuery}
    (h : DocumentQuery.ofRules rules schema = .ok query) :
    ∃ clauses, List.Forall₂ (fun criteria clause => criteria.clause schema = .ok clause)
      (Rule.criteriaOf rules) clauses ∧ query.leaves = clauses.flatMap FieldClause.leaves := by
  obtain ⟨pieces, found, hpieces, hrun, rfl⟩ := DocumentQuery.exists_run_of_ofRules h
  obtain ⟨clauses, hclauses, hmembers⟩ := Rule.exists_clauses_of_pieces hpieces
  refine ⟨clauses, hclauses, ?_⟩
  -- What the pieces keep through the run is the list of their leaves, from the clauses to the query.
  have hkept : Piece.leaves (found.map Piece.member).toList = Piece.leaves pieces :=
    Piece.Step.invariant (fun _ _ hstep hleaves => hstep.leaves_eq.trans hleaves) hrun rfl
  have hall : Piece.leaves pieces = clauses.flatMap FieldClause.leaves := by
    rw [Piece.leaves, hmembers, Member.leaves_map_clause]
  rw [← hall, ← hkept]
  cases found with
  | none => rfl
  | some member => exact (List.append_nil _).symm

/-- A comparison and a selection below one list, with the connective behind them that an ordered list has
between them. -/
theorem DocumentQuery.leaves_ofRules_shop :
    let schema : Schema := ⟨[("shop", .nested), ("shop.prices", .nested)]⟩
    let kind : Criteria := ⟨"shop.kind", .equal, .value (.text "book"), false⟩
    let amount : Criteria :=
      ⟨"shop.prices[market:trade].amount", .greater, .value (.integer 3), false⟩
    let rules : List Rule := [.separator .opening, .criteria kind, .criteria amount, .logical .or,
      .separator .closing]
    let query : DocumentQuery := .fields [.mk "shop" (.elementMatch (.or [
      .fields [.mk "kind" (.compare .equal (.text "book"))],
      .fields [.mk "prices" (.elementMatch (.fields [.mk "market" (.equals (.text "trade")),
        .mk "amount" (.compare .greater (.integer 3))]))]]))]
    checkOrder rules ≠ .ok () ∧ DocumentQuery.ofRules rules schema = .ok query ∧
      (∃ clauses, List.Forall₂ (fun criteria clause => criteria.clause schema = .ok clause)
        (Rule.criteriaOf rules) clauses ∧ query.leaves = clauses.flatMap FieldClause.leaves) ∧
      query.leaves = [
        .mk "shop.kind" (.compare .equal (.text "book")),
        .mk "shop.prices.market" (.equals (.text "trade")),
        .mk "shop.prices.amount" (.compare .greater (.integer 3))] := by
  intro schema kind amount rules query
  have horder : checkOrder rules ≠ .ok () := by
    intro h
    cases h
  have hquery : DocumentQuery.ofRules rules schema = .ok query := by cbv
  exact ⟨horder, hquery, DocumentQuery.leaves_ofRules hquery, by cbv⟩

end FilterRules
