import FilterRules.Document.Query
import FilterRules.Proofs.Document.Parts
import FilterRules.Proofs.Rule.Travel

/-!
# Document queries read from JSON

The queries that a list of rules can have are read back from their JSON. A connective stands over a
list, which is no condition on a field, so that no name of a field is mistaken for one. The conditions
of a field have an operator of their own, a date has one too, and any other bare value is a literal.
The members of an object have lost their order, but clauses stand side by side only where a selection
does: the bare value is its key, and the condition with an operator comes behind it.
-/

namespace FilterRules

/-- The comparison with one value that has the given operator. -/
def CompareOp.ofOperator? : String → Option CompareOp
  | "$eq" => some .equal
  | "$ne" => some .notEqual
  | "$gt" => some .greater
  | "$lt" => some .less
  | "$gte" => some .greaterOrEqual
  | "$lte" => some .lessOrEqual
  | _ => none

/-- The comparison with several values that has the given operator. -/
def SetOp.ofOperator? : String → Option SetOp
  | "$in" => some .oneOf
  | "$nin" => some .noneOf
  | "$all" => some .allOf
  | _ => none

/-- The literal of a JSON value in a document query: a date stands in an object of its own. -/
def Literal.ofDocumentJson? : Json → Option Literal
  | .object [("$date", .text s)] => (Instant.ofIso? s).map .date
  | value => ofJson? value

/-- The comparing condition with the given operator. -/
def Condition.ofOperator? (operator : String) (value : Json) : Option Condition :=
  match CompareOp.ofOperator? operator, SetOp.ofOperator? operator, value with
  | some op, _, value => (Literal.ofDocumentJson? value).map (.compare op)
  | none, some op, .array items => (items.mapM Literal.ofDocumentJson?).map (.set op)
  | none, none, .text expression =>
    if operator = "$regex" then some (.pattern expression false) else none
  | _, _, _ => none

/-- Whether a clause compares its field with a bare value. -/
def FieldClause.isSelector : FieldClause → Bool
  | .mk _ (.equals _) => true
  | .mk _ _ => false

/-- Clauses with those in front that compare with a bare value. -/
def FieldClause.selectorsFirst (clauses : List FieldClause) : List FieldClause :=
  clauses.filter isSelector ++ clauses.filter fun clause => !clause.isSelector

mutual

/-- The query of a JSON value. -/
def DocumentQuery.ofJson? : Json → Option DocumentQuery
  | .object [] => some .matchAll
  | .object [("$and", .array items)] => (DocumentQuery.listOfJson? items).map .and
  | .object [("$or", .array items)] => (DocumentQuery.listOfJson? items).map .or
  | .object members =>
    (FieldClause.ofMembers? members).map fun clauses => .fields (FieldClause.selectorsFirst clauses)
  | _ => none

/-- The queries of JSON values. -/
def DocumentQuery.listOfJson? : List Json → Option (List DocumentQuery)
  | [] => some []
  | item :: items => do
    let query ← DocumentQuery.ofJson? item
    let queries ← DocumentQuery.listOfJson? items
    return query :: queries

/-- The clauses of the members of an object, in their order. -/
def FieldClause.ofMembers? : List (String × Json) → Option (List FieldClause)
  | [] => some []
  | (path, value) :: members => do
    let condition ← Condition.ofJson? value
    let clauses ← FieldClause.ofMembers? members
    return .mk path condition :: clauses

/-- The condition of a JSON value. -/
def Condition.ofJson? : Json → Option Condition
  | .object [("$elemMatch", value)] => (DocumentQuery.ofJson? value).map .elementMatch
  | .object [("$date", value)] =>
    (Literal.ofDocumentJson? (.object [("$date", value)])).map .equals
  | .object [(operator, value)] => Condition.ofOperator? operator value
  | .object [("$options", .text "i"), ("$regex", .text expression)] =>
    some (.pattern expression true)
  | value => (Literal.ofDocumentJson? value).map .equals

end

/-- Whether a literal is read back from its JSON. -/
def Literal.IsLegible (literal : Literal) : Prop :=
  ofDocumentJson? literal.toDocumentJson = some literal

/-- Whether the literals of a condition are read back. -/
def Condition.IsLegible : Condition → Prop
  | .equals value => value.IsLegible
  | .compare _ value => value.IsLegible
  | .set _ values => ∀ value ∈ values, value.IsLegible
  | .pattern _ _ => True
  | .elementMatch _ => True

/-- Clauses that are read back from the members of one object: one clause, or a bare value and a
condition with an operator on another field. -/
inductive FieldClause.AreLegible : List FieldClause → Prop
  /-- One clause. -/
  | single (path : String) {condition : Condition} (h : condition.IsLegible) :
      AreLegible [.mk path condition]
  /-- The key of a selection, and what is compared. -/
  | selected {key path : String} {value : Literal} {condition : Condition} (hdiffer : key ≠ path)
      (hvalue : value.IsLegible) (hcondition : condition.IsLegible)
      (hcompared : ∀ other, condition ≠ .equals other) :
      AreLegible [.mk key (.equals value), .mk path condition]

/-- Whether a query, as it stands at its place, is read back if the queries in it are. -/
def DocumentQuery.IsLegible : DocumentQuery → Prop
  | .matchAll => True
  | .fields clauses => FieldClause.AreLegible clauses
  | .and _ => True
  | .or _ => True

/-- Literals are read back from their JSON one by one. -/
theorem Literal.mapM_ofDocumentJson? {literals : List Literal}
    (h : ∀ literal ∈ literals, literal.IsLegible) :
    (literals.map toDocumentJson).mapM ofDocumentJson? = some literals :=
  Outcome.mapM_map_eq_some_iff.mpr h

/-- A value under the operator of a comparison is what it compares with. -/
theorem Condition.ofJson?_compare (op : CompareOp) (value : Json) :
    Condition.ofJson? (.object [(op.operator, value)]) =
      (Literal.ofDocumentJson? value).map (.compare op) := by
  cases op <;> rfl

/-- Values under the operator of a comparison with several values are what it compares with. -/
theorem Condition.ofJson?_set (op : SetOp) (items : List Json) :
    Condition.ofJson? (.object [(op.operator, .array items)]) =
      (items.mapM Literal.ofDocumentJson?).map (.set op) := by
  cases op <;> rfl

/-- A bare literal is read as a bare value. -/
theorem Condition.ofJson?_equals (value : Literal) :
    Condition.ofJson? value.toDocumentJson =
      (Literal.ofDocumentJson? value.toDocumentJson).map .equals := by
  cases value with
  | real x =>
    rw [Literal.toDocumentJson, Literal.toJson, Json.ofBinary64]
    · cases JsonNumber.real? x <;> rfl
    · simp
  | _ => rfl

/-- The options of a regular expression are the first member of its object. -/
theorem Condition.toJson_pattern (expression : String) :
    (pattern expression true).toJson =
      .object [("$options", .text "i"), ("$regex", .text expression)] := by
  have hlt : "$options" < "$regex" := by decide
  simp [toJson, Json.ofWrites, Dictionary.ofWrites, Dictionary.insert, hlt]

/-- A comparing condition is read back when its literals are. -/
theorem Condition.ofJson?_toJson_of_compares {condition : Condition} (h : condition.IsLegible)
    (hcompares : ∀ query, condition ≠ .elementMatch query) :
    ofJson? condition.toJson = some condition := by
  cases condition with
  | equals value =>
    rw [toJson, ofJson?_equals]
    exact congrArg (Option.map _) h
  | compare op value =>
    rw [toJson]
    exact (ofJson?_compare op _).trans (congrArg (Option.map _) h)
  | set op values =>
    rw [toJson]
    exact (ofJson?_set op _).trans (congrArg (Option.map _) (Literal.mapM_ofDocumentJson? h))
  | pattern expression caseInsensitive =>
    cases caseInsensitive with
    | false => rfl
    | true =>
      rw [toJson_pattern]
      rfl
  | elementMatch query => exact absurd rfl (hcompares query)

/-- The JSON value of a literal is no list. -/
theorem Literal.toDocumentJson_ne_array (literal : Literal) (items : List Json) :
    literal.toDocumentJson ≠ .array items := by
  cases literal with
  | real x =>
    rw [toDocumentJson, toJson, Json.ofBinary64]
    · cases JsonNumber.real? x <;> simp
    · simp
  | integer n => simp [toDocumentJson, toJson, Json.ofInt64]
  | _ => simp [toDocumentJson, toJson, Json.ofWrites]

/-- The JSON value of a condition is no list. -/
theorem Condition.toJson_ne_array (condition : Condition) (items : List Json) :
    condition.toJson ≠ .array items := by
  cases condition with
  | equals value => exact value.toDocumentJson_ne_array items
  | pattern expression caseInsensitive =>
    cases caseInsensitive <;> simp [toJson, Json.ofWrites]
  | _ => simp [toJson, Json.ofWrites]

/-- Members that are no list under one key are those of clauses. -/
theorem DocumentQuery.ofJson?_object {members : List (String × Json)} (hne : members ≠ [])
    (h : ∀ key items, members ≠ [(key, .array items)]) :
    ofJson? (.object members) = (FieldClause.ofMembers? members).map fun clauses =>
      .fields (FieldClause.selectorsFirst clauses) := by
  rw [ofJson?]
  · exact hne
  · exact fun items => h "$and" items
  · exact fun items => h "$or" items

/-- The members that clauses write are read back when the conditions are. -/
theorem FieldClause.ofMembers?_writes {clauses : List FieldClause}
    (h : ∀ clause ∈ clauses, Condition.ofJson? clause.condition.toJson = some clause.condition) :
    ofMembers? (writes clauses) = some clauses := by
  induction clauses with
  | nil => rfl
  | cons clause clauses ih =>
    obtain ⟨hclause, hclauses⟩ := List.forall_mem_cons.mp h
    obtain ⟨path, condition⟩ := clause
    have hcondition : Condition.ofJson? condition.toJson = some condition := hclause
    rw [writes, ofMembers?, hcondition, ih hclauses]
    rfl

/-- Legible clauses are read back from the members of their object when their conditions are. -/
theorem FieldClause.AreLegible.ofJson?_fields {clauses : List FieldClause} (h : AreLegible clauses)
    (hread : ∀ clause ∈ clauses,
      Condition.ofJson? clause.condition.toJson = some clause.condition) :
    DocumentQuery.ofJson? (DocumentQuery.fields clauses).toJson = some (.fields clauses) := by
  cases h with
  | @single path condition _ =>
    have hmembers : (DocumentQuery.fields [.mk path condition]).toJson =
        .object (writes [.mk path condition]) := rfl
    rw [hmembers, DocumentQuery.ofJson?_object (by simp [writes]), ofMembers?_writes hread]
    · cases hselector : (FieldClause.mk path condition).isSelector <;>
        simp [selectorsFirst, hselector]
    · intro key items hsame
      obtain ⟨_, harray⟩ : path = key ∧ condition.toJson = .array items := by
        simpa [writes] using hsame
      exact condition.toJson_ne_array items harray
  | @selected key path value condition hdiffer _ _ hcompared =>
    have hselector : (FieldClause.mk key (.equals value)).isSelector = true := rfl
    have hother : (FieldClause.mk path condition).isSelector = false := by
      cases condition with
      | equals other => exact absurd rfl (hcompared other)
      | _ => rfl
    rw [DocumentQuery.toJson, Json.ofWrites]
    -- Either order of the members is read as the selection in front of the comparison.
    rcases Dictionary.ofWrites_pair hdiffer (Condition.equals value).toJson condition.toJson with
      hwrites | hwrites
    · have hmembers : Dictionary.ofWrites (writes [.mk key (.equals value), .mk path condition]) =
          writes [.mk key (.equals value), .mk path condition] := hwrites
      rw [hmembers, DocumentQuery.ofJson?_object (by simp [writes]) (by simp [writes]),
        ofMembers?_writes hread]
      simp [selectorsFirst, hselector, hother]
    · have hmembers : Dictionary.ofWrites (writes [.mk key (.equals value), .mk path condition]) =
          writes [.mk path condition, .mk key (.equals value)] := hwrites
      rw [hmembers, DocumentQuery.ofJson?_object (by simp [writes]) (by simp [writes]),
        ofMembers?_writes (by simpa [and_comm] using hread)]
      simp [selectorsFirst, hselector, hother]

/-- The conditions of legible clauses are legible. -/
theorem FieldClause.AreLegible.forall_condition {clauses : List FieldClause} (h : AreLegible clauses) :
    ∀ clause ∈ clauses, clause.condition.IsLegible := by
  cases h with
  | single path h => simpa [FieldClause.condition] using h
  | selected _ hvalue hcondition _ =>
    have hselector : (Condition.equals _).IsLegible := hvalue
    simpa [FieldClause.condition] using ⟨hselector, hcondition⟩

mutual

/-- A query is read back from its JSON when all queries in it are legible. -/
theorem DocumentQuery.ofJson?_toJson : (query : DocumentQuery) →
    (∀ part ∈ query.parts, part.IsLegible) → DocumentQuery.ofJson? query.toJson = some query
  | .matchAll, _ => rfl
  | .fields clauses, h => by
    obtain ⟨hclauses, hinner⟩ := List.forall_mem_cons.mp h
    exact FieldClause.AreLegible.ofJson?_fields hclauses
      (FieldClause.ofJson?_conditions clauses hinner (FieldClause.AreLegible.forall_condition hclauses))
  | .and queries, h => by
    have hqueries := DocumentQuery.listOfJson?_listJson queries (List.forall_mem_cons.mp h).2
    have hread : DocumentQuery.ofJson? (DocumentQuery.and queries).toJson =
        (DocumentQuery.listOfJson? (DocumentQuery.listJson queries)).map .and := rfl
    rw [hread, hqueries]
    rfl
  | .or queries, h => by
    have hqueries := DocumentQuery.listOfJson?_listJson queries (List.forall_mem_cons.mp h).2
    have hread : DocumentQuery.ofJson? (DocumentQuery.or queries).toJson =
        (DocumentQuery.listOfJson? (DocumentQuery.listJson queries)).map .or := rfl
    rw [hread, hqueries]
    rfl

/-- Queries are read back from their JSON when all queries in them are legible. -/
theorem DocumentQuery.listOfJson?_listJson : (queries : List DocumentQuery) →
    (∀ part ∈ DocumentQuery.partsOf queries, part.IsLegible) →
    DocumentQuery.listOfJson? (DocumentQuery.listJson queries) = some queries
  | [], _ => rfl
  | query :: queries, h => by
    obtain ⟨hquery, hqueries⟩ := List.forall_mem_append.mp h
    rw [DocumentQuery.listJson, DocumentQuery.listOfJson?,
      DocumentQuery.ofJson?_toJson query hquery,
      DocumentQuery.listOfJson?_listJson queries hqueries]
    rfl

/-- The conditions of clauses are read back when their literals and all queries in them are. -/
theorem FieldClause.ofJson?_conditions : (clauses : List FieldClause) →
    (∀ part ∈ FieldClause.parts clauses, part.IsLegible) →
    (∀ clause ∈ clauses, clause.condition.IsLegible) →
    ∀ clause ∈ clauses, Condition.ofJson? clause.condition.toJson = some clause.condition
  | [], _, _ => by simp
  | .mk path condition :: clauses, h, hlegible => by
    obtain ⟨hcondition, hconditions⟩ := List.forall_mem_cons.mp hlegible
    cases condition with
    | elementMatch query =>
      obtain ⟨hquery, hclauses⟩ := List.forall_mem_append.mp h
      have hread := DocumentQuery.ofJson?_toJson query hquery
      refine List.forall_mem_cons.mpr
        ⟨?_, FieldClause.ofJson?_conditions clauses hclauses hconditions⟩
      exact congrArg (Option.map Condition.elementMatch) hread
    | _ =>
      refine List.forall_mem_cons.mpr ⟨?_, FieldClause.ofJson?_conditions clauses h hconditions⟩
      exact Condition.ofJson?_toJson_of_compares hcondition fun _ => Condition.noConfusion

end

end FilterRules
