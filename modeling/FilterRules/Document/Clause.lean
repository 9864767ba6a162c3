import FilterRules.Conversion
import FilterRules.Document.Query

/-!
# Clauses for criteria

Each criteria becomes one field clause. A criteria that selects an element becomes a clause on the
list, which asks for one element that has the selected key and satisfies the comparison.

The clauses of one group whose fields lie below one list must hold for one element of that list.
They are joined into a single clause on the list. A group with a member that is no clause, or with
clauses that share no list, is joined as it is.
-/

namespace FilterRules

namespace Criteria

/-- The single literal of a criteria. -/
def scalar (criteria : Criteria) : Except CompileError Literal :=
  match criteria.operand with
  | .value literal => .ok literal
  | .values _ => .error (.emission (.operandShape criteria.relationship))

/-- The several literals of a criteria. -/
def several (criteria : Criteria) : Except CompileError (List Literal) :=
  match criteria.operand with
  | .values literals => .ok literals
  | .value _ => .error (.emission (.operandShape criteria.relationship))

/-- The condition that a criteria puts on its field. -/
def condition (criteria : Criteria) : Except CompileError Condition :=
  match criteria.relationship.positive, criteria.relationship.isNegated with
  | .equal, false => criteria.scalar.map (.compare .equal)
  | .equal, true => criteria.scalar.map (.compare .notEqual)
  | .greater, _ => criteria.scalar.map (.compare .greater)
  | .less, _ => criteria.scalar.map (.compare .less)
  | .greaterOrEqual, _ => criteria.scalar.map (.compare .greaterOrEqual)
  | .lessOrEqual, _ => criteria.scalar.map (.compare .lessOrEqual)
  | .oneOf, false => criteria.several.map (.set .oneOf)
  | .oneOf, true => criteria.several.map (.set .noneOf)
  | .allOf, _ => criteria.several.map (.set .allOf)
  | .like, _ => criteria.scalar.map fun literal => .pattern (Pattern.containing literal.asText) true
  | .startsWith, _ =>
    criteria.scalar.map fun literal => .pattern (Pattern.startingWith literal.asText) false
  -- Only the negations are left, which `positive` takes away.
  | other, _ => .error (.emission (.unsupportedRelationship other))

/-- Every relationship has a form as a condition. -/
theorem condition_ne_unsupported (criteria : Criteria) (refused : Relationship) :
    criteria.condition ≠ .error (.emission (.unsupportedRelationship refused)) := by
  obtain ⟨field, relationship, operand, exactMatch⟩ := criteria
  cases relationship <;> cases operand <;>
    simp [condition, Relationship.positive, Relationship.test, Test.relationship,
      Relationship.isNegated, scalar, several, Except.map]

end Criteria

/-- The literal that a selection compares its key with, for rules that were converted. -/
def AttributePath.emittedFilter (path : AttributePath) (schema : Schema) :
    Except CompileError (Option Literal) :=
  match path.filterLiteral schema with
  | .ok literal => .ok literal
  | .error expected => .error (.emission (.filterValue path.schemaPath expected))

/-- An element with a value under a key that satisfies a condition on one of its fields. One object
has no key twice: when the field is the key, the two clauses are joined instead. -/
def selectElement (key : String) (value : Literal) (field : String) (condition : Condition) :
    DocumentQuery :=
  let selector := FieldClause.mk key (.equals value)
  let compared := FieldClause.mk field condition
  if key = field then .and [.fields [selector], .fields [compared]]
  else .fields [selector, compared]

/-- The clause of a criteria. -/
def Criteria.clause (criteria : Criteria) (schema : Schema) : Except CompileError FieldClause := do
  let condition ← criteria.condition
  let path ← AttributePath.parseAt criteria.path none
  match path with
  | .plain _ => return .mk criteria.path condition
  | .filtered array key value element =>
    let literal ← path.emittedFilter schema
    return .mk (Dotted.ofSegments array)
      (.elementMatch (selectElement key (literal.getD (.text value)) (Dotted.ofSegments element)
        condition))

/-- A member of a group. -/
inductive Member where
  /-- The clause of a criteria. -/
  | clause (single : FieldClause)
  /-- A query that was joined already. -/
  | query (joined : DocumentQuery)

namespace Member

/-- A member as a query. -/
def toQuery : Member → DocumentQuery
  | .clause single => .fields [single]
  | .query joined => joined

/-- The clauses of members, if all of them are clauses. -/
def clauses? : List Member → Option (List FieldClause)
  | [] => some []
  | .clause single :: members => (clauses? members).map (single :: ·)
  | .query _ :: _ => none

end Member

/-- A clause seen from an element of a list above its field. -/
def FieldClause.seenFrom (root : String) (clause : FieldClause) : FieldClause :=
  .mk (Dotted.relativeTo clause.path root) clause.condition

/-- The members of a group joined by a connective. -/
def resolveGroup (connective : Connective) (members : List Member) (schema : Schema) :
    DocumentQuery :=
  match Member.clauses? members with
  | none => .combine connective (members.map Member.toQuery)
  | some clauses =>
    match schema.groupingRoot? .array (clauses.map FieldClause.path) with
    | none => .combine connective (members.map Member.toQuery)
    | some root =>
      let inner := clauses.map fun clause => DocumentQuery.fields [clause.seenFrom root]
      .fields [.mk root (.elementMatch (.combine connective inner))]

end FilterRules
