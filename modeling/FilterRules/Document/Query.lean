import FilterRules.Literal
import FilterRules.Rule.Basic

/-!
# Queries of a document store

A query is a condition on documents: conditions on fields, and conjunctions and disjunctions of
queries. A condition on a list field may ask for one element that satisfies a whole query. A text
is quoted for a regular expression by a backslash in front of each character that could stand for
something other than itself.

In JSON the field clauses of one query are the members of one object, so that of two clauses on one
field the later one remains. Dates stand in an object of their own, so that the store compares them
as dates.
-/

namespace FilterRules.Pattern

/-- The characters that a regular expression may give a meaning of their own. -/
def metacharacters : List Char :=
  ['\\', '.', '+', '*', '?', '(', ')', '|', '[', ']', '\x7b', '\x7d', '^', '$', '#', '&', '-', '~']

/-- A text with each metacharacter behind a backslash. -/
def quote : List Char → List Char
  | [] => []
  | c :: rest => if c ∈ metacharacters then '\\' :: c :: quote rest else c :: quote rest

/-- A pattern for texts that hold `text` somewhere. -/
def containing (text : String) : String := String.ofList (quote text.toList)

/-- A pattern for texts that start with `text`. -/
def startingWith (text : String) : String := String.ofList ('^' :: quote text.toList)

end FilterRules.Pattern

namespace FilterRules

/-- A comparison with one value. -/
inductive CompareOp where
  /-- Equal. -/
  | equal
  /-- Not equal. -/
  | notEqual
  /-- Greater. -/
  | greater
  /-- Less. -/
  | less
  /-- Greater or equal. -/
  | greaterOrEqual
  /-- Less or equal. -/
  | lessOrEqual
deriving DecidableEq

/-- The operator of a comparison. -/
def CompareOp.operator : CompareOp → String
  | .equal => "$eq"
  | .notEqual => "$ne"
  | .greater => "$gt"
  | .less => "$lt"
  | .greaterOrEqual => "$gte"
  | .lessOrEqual => "$lte"

/-- A comparison with several values. -/
inductive SetOp where
  /-- One of the values. -/
  | oneOf
  /-- None of the values. -/
  | noneOf
  /-- All of the values. -/
  | allOf
deriving DecidableEq

/-- The operator of a comparison. -/
def SetOp.operator : SetOp → String
  | .oneOf => "$in"
  | .noneOf => "$nin"
  | .allOf => "$all"

mutual

/-- A query. -/
inductive DocumentQuery where
  /-- Every document. -/
  | matchAll
  /-- Documents that satisfy all of some field clauses. -/
  | fields (clauses : List FieldClause)
  /-- Documents that satisfy all of some queries. -/
  | and (queries : List DocumentQuery)
  /-- Documents that satisfy one of some queries. -/
  | or (queries : List DocumentQuery)

/-- A field and the condition on it. -/
inductive FieldClause where
  /-- The field with the given path, and its condition. -/
  | mk (path : String) (condition : Condition)

/-- A condition on a field. -/
inductive Condition where
  /-- The bare value. -/
  | equals (value : Literal)
  /-- A comparison with one value. -/
  | compare (op : CompareOp) (value : Literal)
  /-- A comparison with several values. -/
  | set (op : SetOp) (values : List Literal)
  /-- A text that a regular expression matches. -/
  | pattern (expression : String) (caseInsensitive : Bool)
  /-- A list with an element that satisfies a query. -/
  | elementMatch (query : DocumentQuery)

end

/-- The field of a clause. -/
def FieldClause.path : FieldClause → String
  | .mk path _ => path

/-- The condition of a clause. -/
def FieldClause.condition : FieldClause → Condition
  | .mk _ condition => condition

/-- Queries joined by a connective. -/
def DocumentQuery.combine : Connective → List DocumentQuery → DocumentQuery
  | .and, queries => .and queries
  | .or, queries => .or queries

/-- The JSON value of a literal in a document query. -/
def Literal.toDocumentJson : Literal → Json
  | .date d => Json.ofWrites [("$date", .text d.isoText)]
  | other => other.toJson

mutual

/-- The JSON value of a query. -/
def DocumentQuery.toJson : DocumentQuery → Json
  | .matchAll => .object []
  | .fields clauses => Json.ofWrites (FieldClause.writes clauses)
  | .and queries => Json.ofWrites [("$and", .array (DocumentQuery.listJson queries))]
  | .or queries => Json.ofWrites [("$or", .array (DocumentQuery.listJson queries))]

/-- The JSON values of queries. -/
def DocumentQuery.listJson : List DocumentQuery → List Json
  | [] => []
  | query :: queries => query.toJson :: DocumentQuery.listJson queries

/-- The members that clauses write, in their order. -/
def FieldClause.writes : List FieldClause → List (String × Json)
  | [] => []
  | .mk path condition :: clauses => (path, condition.toJson) :: FieldClause.writes clauses

/-- The JSON value of a condition. -/
def Condition.toJson : Condition → Json
  | .equals value => value.toDocumentJson
  | .compare op value => Json.ofWrites [(op.operator, value.toDocumentJson)]
  | .set op values => Json.ofWrites [(op.operator, .array (values.map Literal.toDocumentJson))]
  | .pattern expression true =>
    Json.ofWrites [("$regex", .text expression), ("$options", .text "i")]
  | .pattern expression false => Json.ofWrites [("$regex", .text expression)]
  | .elementMatch query => Json.ofWrites [("$elemMatch", query.toJson)]

end

end FilterRules
