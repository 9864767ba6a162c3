import FilterRules.Proofs.Document.Clause
import Mathlib.Data.List.Dedup

/-!
# Clauses on one attribute

Whether the clauses of a group are joined in one element of a list depends on which attributes they are
on, and not on how many clauses there are on each. Two clauses on one attribute are therefore kept apart
when no third one parts from that attribute: the attribute begins all the others and is no place above
itself. As soon as some clause parts from each of them, they are joined like any others. The main result
says exactly which groups with a repeated attribute stay as they are, and on which list all others are
joined.
-/

namespace FilterRules

namespace Member

/-- The attributes of the clauses among some members, in their order. -/
def paths : List Member → List String
  | [] => []
  | .clause single :: members => single.path :: paths members
  | .query _ :: members => paths members

/-- The attributes of clauses. -/
theorem paths_map_clause (clauses : List FieldClause) :
    paths (clauses.map .clause) = clauses.map FieldClause.path := by
  induction clauses with
  | nil => rfl
  | cons clause clauses ih => rw [List.map_cons, paths, ih, List.map_cons]

/-- Not all members are clauses when one of them is a joined query. -/
theorem clauses?_eq_none_iff {members : List Member} :
    clauses? members = none ↔ ∃ joined, Member.query joined ∈ members := by
  induction members with
  | nil => simp [clauses?]
  | cons member members ih =>
    cases member with
    | clause single => simpa [clauses?] using ih
    | query joined =>
      rw [clauses?, eq_self_iff_true, true_iff]
      exact ⟨joined, List.mem_cons_self⟩

end Member

variable {connective : Connective} {schema : Schema} {members : List Member}

/-- A group is joined as it is when one of its members is a joined query or its clauses have no grouping
root. -/
theorem resolveGroup_eq_combine_iff :
    resolveGroup connective members schema = .combine connective (members.map Member.toQuery) ↔
      (∃ joined, Member.query joined ∈ members) ∨
        schema.groupingRoot? .array (Member.paths members) = none := by
  rw [resolveGroup, ← Member.clauses?_eq_none_iff]
  cases hclauses : Member.clauses? members with
  | none => simp
  | some clauses =>
    obtain rfl := Member.clauses?_eq_some hclauses
    rw [Member.paths_map_clause]
    cases hroot : schema.groupingRoot? .array (clauses.map FieldClause.path) with
    | none => simp [hroot]
    | some root => simp [hroot, (DocumentQuery.combine_ne_fields _ _ _).symm]

/-- Clauses with a grouping root are not joined as they are. -/
theorem resolveGroup_ne_combine {clauses : List FieldClause} {root : String}
    (h : schema.groupingRoot? .array (clauses.map FieldClause.path) = some root) :
    resolveGroup connective (clauses.map .clause) schema ≠
      .combine connective ((clauses.map .clause).map Member.toQuery) := by
  intro hplain
  rcases resolveGroup_eq_combine_iff.mp hplain with ⟨joined, hjoined⟩ | hnone
  · simp at hjoined
  · rw [Member.paths_map_clause, h] at hnone
    simp at hnone

/-- A group in which two clauses are on the same attribute is joined as it is exactly when one of its
members is a joined query, or one of its attributes begins all the others, as it does when there is no
other, or no place above all of them is a list. Otherwise its clauses are joined in an element match, on
the list that the attributes would be grouped on if none of them were repeated. -/
theorem resolveGroup_repeated (connective : Connective) (schema : Schema) {members : List Member}
    (h : ¬(Member.paths members).Nodup) :
    (resolveGroup connective members schema = .combine connective (members.map Member.toQuery) ↔
      (∃ joined, Member.query joined ∈ members) ∨
      (∃ lowest ∈ Member.paths members, ∀ other ∈ Member.paths members,
        Dotted.segments lowest <+: Dotted.segments other) ∨
      ∀ place, (∀ path ∈ Member.paths members, place ∈ Dotted.ancestors path) →
        ∀ declared, schema.lookup place = some declared → declared.isArray = false) ∧
    (resolveGroup connective members schema ≠ .combine connective (members.map Member.toQuery) →
      ∃ clauses : List FieldClause, ∃ root, members = clauses.map .clause ∧
        schema.groupingRoot? .array (Member.paths members).dedup = some root ∧
        resolveGroup connective members schema = .fields [.mk root (.elementMatch
          (.combine connective (clauses.map fun clause => .fields [clause.seenFrom root])))]) := by
  have hne : Member.paths members ≠ [] := fun hempty => h (by rw [hempty]; exact List.nodup_nil)
  constructor
  · have hlist (place : String) : (schema.lookup place).any RootKind.array.accepts = true ↔
        ∃ declared, schema.lookup place = some declared ∧ declared.isArray = true :=
      Option.any_eq_true _ _
    rw [resolveGroup_eq_combine_iff, Option.eq_none_iff_forall_ne_some, ← not_exists,
      Schema.exists_groupingRoot?_iff hne, not_and_or]
    simp only [hlist, not_exists, not_and, not_forall, not_not, Bool.not_eq_true, exists_prop]
  · intro hjoined
    rcases resolveGroup_cases connective members schema with hplain | hmatch
    · exact absurd hplain hjoined
    · obtain ⟨clauses, root, rfl, hroot, _, hquery⟩ := hmatch
      refine ⟨clauses, root, rfl, ?_, hquery⟩
      rw [Member.paths_map_clause, ← hroot]
      exact schema.groupingRoot?_congr .array fun path => List.mem_dedup

/-- Two bounds on a price are kept apart, and two words of a title are joined with the kind beside them. -/
theorem resolveGroup_repeated_prices :
    let schema : Schema := ⟨[("editions", .nested), ("prices", .nested)]⟩
    let prices : List FieldClause := [.mk "prices.price" (.compare .greater (.integer 10)),
      .mk "prices.price" (.compare .less (.integer 20))]
    let editions : List FieldClause := [.mk "editions.title" (.pattern "sea" true),
      .mk "editions.kind" (.compare .equal (.text "ebook")), .mk "editions.title" (.pattern "old" true)]
    (¬(Member.paths (prices.map .clause)).Nodup ∧
      resolveGroup .and (prices.map .clause) schema =
        .combine .and ((prices.map .clause).map Member.toQuery)) ∧
    ¬(Member.paths (editions.map .clause)).Nodup ∧
      ∃ clauses : List FieldClause, ∃ root, editions.map .clause = clauses.map Member.clause ∧
        schema.groupingRoot? .array (Member.paths (editions.map .clause)).dedup = some root ∧
        resolveGroup .and (editions.map .clause) schema = .fields [.mk root (.elementMatch
          (.combine .and (clauses.map fun clause => .fields [clause.seenFrom root])))] := by
  intro schema prices editions
  have hprices : ¬(Member.paths (prices.map .clause)).Nodup := by
    simp [prices, Member.paths, FieldClause.path]
  have heditions : ¬(Member.paths (editions.map .clause)).Nodup := by
    simp [editions, Member.paths, FieldClause.path]
  have hroot : schema.groupingRoot? .array (editions.map FieldClause.path) = some "editions" := by cbv
  refine ⟨⟨hprices, ?_⟩, heditions,
    (resolveGroup_repeated .and schema heditions).2 (resolveGroup_ne_combine hroot)⟩
  refine (resolveGroup_repeated .and schema hprices).1.mpr (Or.inr (Or.inl ⟨"prices.price", ?_⟩))
  simp [prices, Member.paths, FieldClause.path]

/-- Two clauses on one attribute are joined in one element when a clause on another attribute of the
elements stands beside them. -/
theorem joined_beside_repetition :
    let schema : Schema := ⟨[("prices", .nested), ("prices.currency", .ofStrings),
      ("prices.price", .ofNumbers)]⟩
    let clauses : List FieldClause := [.mk "prices.price" (.compare .greater (.integer 10)),
      .mk "prices.price" (.compare .less (.integer 20)),
      .mk "prices.currency" (.compare .equal (.text "EUR"))]
    ¬(Member.paths (clauses.map .clause)).Nodup ∧
      resolveGroup .and (clauses.map .clause) schema ≠
        .combine .and ((clauses.map .clause).map Member.toQuery) := by
  intro schema clauses
  have hroot : schema.groupingRoot? .array (clauses.map FieldClause.path) = some "prices" := by cbv
  exact ⟨by simp [clauses, Member.paths, FieldClause.path], resolveGroup_ne_combine hroot⟩

end FilterRules
