import FilterRules.Document.Clause
import FilterRules.Rule.Tree
import FilterRules.Schema.Basic
import FilterRules.Search.Query

/-!
# From a rule tree to a search query

Each criteria becomes a leaf on its field, inside the nested fields above it; a negated criteria
excludes the leaf of its test. A group becomes a combination of its items. When all items of a
group are criteria on fields below one nested field, the group becomes one query on the elements of
that field, so that one element has to satisfy all of them.
-/

namespace FilterRules

/-- What a search query depends on besides the rules. -/
structure SearchContext where
  /-- The declared types. -/
  schema : Schema
  /-- The names that the index uses. -/
  settings : Settings
  /-- Whether documents are ranked by relevance. -/
  scoring : Bool

/-- The criteria of some trees, if each of them is one. -/
def Tree.criteria? : List Tree → Option (List Criteria)
  | [] => some []
  | .leaf criteria :: trees => (criteria? trees).map (criteria :: ·)
  | .group _ _ :: _ => none

namespace SearchContext

/-- The name of a field in the index, or of its exact form. -/
def fieldName (context : SearchContext) (path : String) (exact : Bool) : String :=
  if exact then path ++ context.settings.keywordSuffix else path

/-- A query inside the nested fields above a path. -/
def wrapNested (context : SearchContext) (path : String) (query : SearchQuery) : SearchQuery :=
  (context.schema.nestedAncestors path).foldr .nested query

/-- Queries joined by a connective. -/
def compound (context : SearchContext) (connective : Connective) (queries : List SearchQuery) :
    SearchQuery :=
  match connective with
  | .and => if context.scoring then .bool queries [] [] [] else .bool [] queries [] []
  | .or => .bool [] [] queries []

/-- The leaf for the test of a criteria on the field at a path. -/
def leaf (context : SearchContext) (criteria : Criteria) (path : String) :
    Except CompileError SearchQuery :=
  let field := context.fieldName path criteria.exactMatch
  match criteria.relationship.positive with
  | .equal => criteria.scalar.map (.term field)
  | .greater => criteria.scalar.map (.range field .greater)
  | .less => criteria.scalar.map (.range field .less)
  | .greaterOrEqual => criteria.scalar.map (.range field .greaterOrEqual)
  | .lessOrEqual => criteria.scalar.map (.range field .lessOrEqual)
  | .oneOf => criteria.several.map (.terms field)
  | .allOf => criteria.several.map (.termsSet field)
  | .like => criteria.scalar.map (.fullText field)
  | .startsWith => criteria.scalar.map fun literal => .startsWith field literal.asText
  -- Only the negations are left, which `positive` takes away.
  | other => .error (.emission (.unsupportedRelationship other))

/-- Every relationship has a form as a leaf. -/
theorem leaf_ne_unsupported (context : SearchContext) (criteria : Criteria) (path : String)
    (refused : Relationship) :
    context.leaf criteria path ≠ .error (.emission (.unsupportedRelationship refused)) := by
  obtain ⟨field, relationship, operand, exactMatch⟩ := criteria
  cases relationship <;> cases operand <;>
    simp [leaf, Relationship.positive, Relationship.test, Test.relationship, Criteria.scalar,
      Criteria.several, Except.map]

/-- Whether the exact form of a key is compared: when it is a plain string or unknown to the schema,
and does not identify the document. -/
def keyIsExact (context : SearchContext) (keyPath : String) : Bool :=
  keyPath != context.settings.identityField &&
    (context.schema.lookup keyPath).all (·.isPlainString)

/-- The query for the selection of a path, if it has one. -/
def elementFilter (context : SearchContext) (path : AttributePath) :
    Except CompileError (Option SearchQuery) := do
  let literal ← path.emittedFilter context.schema
  match path.keyPath?, literal with
  | some keyPath, some value =>
    return some (.term (context.fieldName keyPath (context.keyIsExact keyPath)) value)
  | _, _ => return none

/-- The query for a criteria on its own. -/
def criteria (context : SearchContext) (criteria : Criteria) : Except CompileError SearchQuery := do
  let path ← AttributePath.parseAt criteria.path none
  let leaf ← context.leaf criteria path.schemaPath
  let negated := criteria.relationship.isNegated
  match ← context.elementFilter path with
  | some filter =>
    let element := if negated then .bool [] [filter] [] [leaf] else .filtering [filter, leaf]
    return context.wrapNested path.schemaPath element
  | none =>
    let wrapped := context.wrapNested path.schemaPath leaf
    return if negated then .noneOf [wrapped] else wrapped

/-- The leaf of a criteria inside the nested fields above it that lie below `root`. -/
def innerLeaf (context : SearchContext) (root : String) (criteria : Criteria) :
    Except CompileError SearchQuery := do
  let leaf ← context.leaf criteria criteria.path
  let below := (context.schema.nestedAncestors criteria.path).filter (Dotted.isBelow · root)
  return below.foldr .nested leaf

/-- The inner leaves of several criteria. -/
def innerLeaves (context : SearchContext) (root : String) :
    List Criteria → Except CompileError (List SearchQuery)
  | [] => .ok []
  | criteria :: rest => do
    let leaf ← context.innerLeaf root criteria
    let leaves ← innerLeaves context root rest
    return leaf :: leaves

/-- The exclusion of a negated criteria from the elements of `root`. Under a conjunction only those
elements count that satisfy the other criteria. -/
def exclusion (context : SearchContext) (root : String) (connective : Connective)
    (positive : List SearchQuery) (excluded : SearchQuery) : SearchQuery :=
  let paired := match connective with
    | .and => context.compound .and (positive ++ [excluded])
    | .or => excluded
  .noneOf [.nested root paired]

/-- The query for a group of criteria on fields below the nested field `root`. -/
def combine (context : SearchContext) (root : String) (connective : Connective)
    (leaves : List Criteria) : Except CompileError SearchQuery := do
  let positive ← context.innerLeaves root (leaves.filter fun c => !c.relationship.isNegated)
  let excluded ← context.innerLeaves root (leaves.filter fun c => c.relationship.isNegated)
  let required :=
    if positive.isEmpty then [] else [.nested root (context.compound connective positive)]
  let parts := required ++ excluded.map (context.exclusion root connective positive)
  let combined := match parts with
    | [part] => part
    | _ => context.compound connective parts
  return context.wrapNested root combined

/-- The paths of several criteria. -/
def paths : List Criteria → Except CompileError (List AttributePath)
  | [] => .ok []
  | criteria :: rest => do
    let path ← AttributePath.parseAt criteria.path none
    let others ← paths rest
    return path :: others

/-- The query for a group of criteria that share a nested field, if they do and none of them
selects an element. -/
def combinedNested (context : SearchContext) (connective : Connective) (leaves : List Criteria) :
    Except CompileError (Option SearchQuery) := do
  let paths ← paths leaves
  if paths.any AttributePath.isFiltered then return none
  match context.schema.groupingRoot? .nested (leaves.map Criteria.path) with
  | none => return none
  | some root => return some (← context.combine root connective leaves)

/-- The query of a group as a whole, if there is one: for no items, and for several criteria that
share a nested field. -/
def wholeGroup (context : SearchContext) (connective : Connective) (children : List Tree) :
    Except CompileError (Option SearchQuery) :=
  match children, Tree.criteria? children with
  | [], _ => .ok (some .matchAll)
  | _ :: _ :: _, some leaves => context.combinedNested connective leaves
  | _, _ => .ok none

mutual

/-- The query of a tree. -/
def query (context : SearchContext) : Tree → Except CompileError SearchQuery
  | .leaf criteria => context.criteria criteria
  | .group connective children => do
    match ← context.wholeGroup connective children with
    | some whole => return whole
    | none => return context.compound connective (← context.queries children)

/-- The queries of trees. -/
def queries (context : SearchContext) : List Tree → Except CompileError (List SearchQuery)
  | [] => .ok []
  | tree :: trees => do
    let first ← context.query tree
    let others ← context.queries trees
    return first :: others

end

end SearchContext

end FilterRules
