import FilterRules.Literal

/-!
# Queries of a search engine

A query is a condition on one field, a condition on the elements of a list of sub-documents, or a
combination of queries. In a combination the queries of `must` and `filter` have to hold and those
of `mustNot` must not; `must` also counts towards the rank of a document. Of `should` one query has
to hold when there is nothing in `must` and `filter`.

In JSON each query is an object with one member, named for the query's kind. Dates are texts. The
empty lists of a combination are left out.
-/

namespace FilterRules

/-- The side of a bound and whether it belongs to the range. -/
inductive RangeBound where
  /-- Greater than the bound. -/
  | greater
  /-- Less than the bound. -/
  | less
  /-- Greater than or equal to the bound. -/
  | greaterOrEqual
  /-- Less than or equal to the bound. -/
  | lessOrEqual
deriving DecidableEq

/-- The word for a bound. -/
def RangeBound.word : RangeBound → String
  | .greater => "gt"
  | .less => "lt"
  | .greaterOrEqual => "gte"
  | .lessOrEqual => "lte"

/-- A query. -/
inductive SearchQuery where
  /-- Every document. -/
  | matchAll
  /-- The field holds a value. -/
  | term (field : String) (value : Literal)
  /-- The field holds one of some values. -/
  | terms (field : String) (values : List Literal)
  /-- The field holds all of some values. -/
  | termsSet (field : String) (values : List Literal)
  /-- The field's text matches a value by relevance. -/
  | fullText (field : String) (value : Literal)
  /-- The field's text starts with a text. -/
  | startsWith (field : String) (start : String)
  /-- The field lies on one side of a bound. -/
  | range (field : String) (bound : RangeBound) (value : Literal)
  /-- Some element of the list at a path satisfies a query. -/
  | nested (path : String) (query : SearchQuery)
  /-- A combination of queries. -/
  | bool (must filter should mustNot : List SearchQuery)

namespace SearchQuery

/-- A combination of queries that must not hold. -/
def noneOf (queries : List SearchQuery) : SearchQuery := .bool [] [] [] queries

/-- A combination of queries that must hold and do not count towards the rank. -/
def filtering (queries : List SearchQuery) : SearchQuery := .bool [] queries [] []

/-- An object with one member. -/
def single (key : String) (value : Json) : Json := Json.ofWrites [(key, value)]

/-- The JSON values of literals. -/
def literals (values : List Literal) : Json := .array (values.map Literal.toJson)

/-- The script that requires every term of a set. -/
def allTermsScript : String := "params.num_terms"

/-- One list of a combination, unless it is empty. -/
def occurrence (key : String) (items : List Json) : List (String × Json) :=
  if items.isEmpty then [] else [(key, .array items)]

mutual

/-- The JSON value of a query. -/
def toJson : SearchQuery → Json
  | .matchAll => single "match_all" (.object [])
  | .term field value => single "term" (single field value.toJson)
  | .terms field values => single "terms" (single field (literals values))
  | .termsSet field values =>
    single "terms_set" <| single field <| Json.ofWrites
      [("terms", literals values),
        ("minimum_should_match_script", single "source" (.text allTermsScript))]
  | .fullText field value => single "match" (single field value.toJson)
  | .startsWith field start => single "prefix" (single field (.text start))
  | .range field bound value => single "range" (single field (single bound.word value.toJson))
  | .nested path query =>
    single "nested" (Json.ofWrites [("path", .text path), ("query", query.toJson)])
  | .bool must filter should mustNot =>
    single "bool" <| Json.ofWrites <|
      occurrence "must" (listJson must) ++ occurrence "filter" (listJson filter) ++
        occurrence "should" (listJson should) ++ occurrence "must_not" (listJson mustNot)

/-- The JSON values of queries. -/
def listJson : List SearchQuery → List Json
  | [] => []
  | query :: queries => query.toJson :: listJson queries

end

end SearchQuery

end FilterRules
