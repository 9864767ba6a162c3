import FilterRules.Proofs.Search.Meaning

/-!
# Search queries on documents with sub-documents

A document gives every leaf query a truth value and has at every path a list of elements, which are
documents themselves. A nested query holds in a document when the query inside holds in some element at
its path. Nested fields around a query lead to an element of an element and so on, each at the next of
their paths, and the query has to hold at the end of one such chain.
-/

namespace FilterRules

/-- A document with lists of sub-documents. -/
structure NestedDocument where
  /-- Whether a leaf query holds. -/
  holds : SearchQuery → Bool
  /-- The elements of the list at a path. -/
  elements : String → List NestedDocument

/-- The ends of the chains of elements that start at a document, one path after the other. -/
def NestedDocument.reach (document : NestedDocument) : List String → List NestedDocument
  | [] => [document]
  | path :: paths => (document.elements path).flatMap (reach · paths)

/-- The ends of chains along more paths. -/
theorem NestedDocument.reach_append (document : NestedDocument) (outer inner : List String) :
    document.reach (outer ++ inner) = (document.reach outer).flatMap (reach · inner) := by
  induction outer generalizing document with
  | nil => simp [reach]
  | cons path paths ih => simp only [List.cons_append, reach, ih, List.flatMap_assoc]

/-- The ends of chains along one more path are the elements at that path. -/
theorem NestedDocument.mem_reach_concat {document element : NestedDocument} {fields : List String}
    {path : String} : element ∈ document.reach (fields ++ [path]) ↔
      ∃ outer ∈ document.reach fields, element ∈ outer.elements path := by
  simp [reach_append, reach]

namespace SearchQuery

mutual

/-- Whether a query holds in a document. -/
def holdsIn : SearchQuery → NestedDocument → Bool
  | .matchAll, _ => true
  | .nested path query, document => (document.elements path).any query.holdsIn
  | .bool must filter should mustNot, document =>
    (valuesIn must document).all id && (valuesIn filter document).all id &&
      !(valuesIn mustNot document).any id &&
      (!must.isEmpty || !filter.isEmpty || should.isEmpty || (valuesIn should document).any id)
  | leaf, document => document.holds leaf

/-- Which of some queries hold in a document. -/
def valuesIn : List SearchQuery → NestedDocument → List Bool
  | [], _ => []
  | query :: queries, document => query.holdsIn document :: valuesIn queries document

end

variable {document : NestedDocument}

mutual

/-- In one document a nested query is as good as a leaf: the document gives each of them a truth value,
and the value of a combination follows from those. -/
theorem eval_holdsIn : (query : SearchQuery) →
    query.eval (·.holdsIn document) = query.holdsIn document
  | .bool must filter should mustNot => by
    simp only [eval, holdsIn, evals_holdsIn must, evals_holdsIn filter, evals_holdsIn should,
      evals_holdsIn mustNot]
  | .matchAll | .term _ _ | .terms _ _ | .termsSet _ _ | .fullText _ _ | .startsWith _ _
  | .range _ _ _ | .nested _ _ => by simp only [eval, holdsIn]

/-- The values of some queries in one document. -/
theorem evals_holdsIn : (queries : List SearchQuery) →
    evals (·.holdsIn document) queries = valuesIn queries document
  | [] => rfl
  | query :: queries => by rw [evals, valuesIn, eval_holdsIn query, evals_holdsIn queries]

end

/-- The values of some queries are those of each of them. -/
theorem valuesIn_eq_map (queries : List SearchQuery) :
    valuesIn queries document = queries.map (·.holdsIn document) := by
  induction queries with
  | nil => rfl
  | cons query queries ih => rw [valuesIn, ih, List.map_cons]

/-- Queries that must not hold. -/
theorem holdsIn_noneOf (queries : List SearchQuery) :
    (noneOf queries).holdsIn document = !queries.any (·.holdsIn document) := by
  simp [noneOf, holdsIn, valuesIn, valuesIn_eq_map]

/-- A query inside nested fields holds at the end of a chain along them. -/
theorem holdsIn_foldr_nested (fields : List String) (query : SearchQuery) :
    (fields.foldr .nested query).holdsIn document = (document.reach fields).any query.holdsIn := by
  induction fields generalizing document with
  | nil => simp [NestedDocument.reach]
  | cons path fields ih =>
    rw [List.foldr_cons, holdsIn, NestedDocument.reach, List.any_flatMap]
    exact congrArg _ (funext fun element => ih)

end SearchQuery

namespace SearchContext

variable {context : SearchContext} {document : NestedDocument}

/-- A leaf has the truth value that the document gives it. -/
theorem holdsIn_leaf {criteria : Criteria} {path : String} {leaf : SearchQuery}
    (h : context.leaf criteria path = .ok leaf) : leaf.holdsIn document = document.holds leaf := by
  have hleaf := isLeaf_leaf h
  cases leaf with
  | matchAll | nested | bool => cases hleaf
  | _ => simp [SearchQuery.holdsIn]

/-- A combination by a connective holds in a document when the connective says so. -/
theorem holdsIn_compound (connective : Connective) {queries : List SearchQuery}
    (hne : queries ≠ []) : (context.compound connective queries).holdsIn document =
      connective.holds (queries.map (·.holdsIn document)) := by
  rw [← SearchQuery.eval_holdsIn, eval_compound connective hne, SearchQuery.evals_holdsIn,
    SearchQuery.valuesIn_eq_map]

end SearchContext

end FilterRules
