import FilterRules.Document.Query
import FilterRules.Document.Template
import FilterRules.Search.Emission
import FilterRules.Search.Query
import FilterRules.Spec.Wire
import FilterRules.Validity

/-!
# Compilation

A specification is flattened, its rules are decoded and checked, and their literals are converted.
From there the two kinds of queries are made in two ways: the document query by reduction of a
template, and the search query by recursion over the rule tree.
-/

namespace FilterRules

/-- What a compilation depends on besides the rules. -/
structure Compiler where
  /-- The declared types of attributes. -/
  schema : Schema
  /-- The names that the index uses. -/
  settings : Settings := {}

/-- A compiled specification for a document store. -/
structure DocumentSpec where
  /-- The type of the products. -/
  productType : String
  /-- The query. -/
  query : DocumentQuery
  /-- The fields to return. -/
  projection : Option (List String)

/-- The object of a compiled specification. -/
def DocumentSpec.toJson (spec : DocumentSpec) : Json :=
  QuerySpec.envelope spec.productType spec.query.toJson spec.projection

namespace Compiler

/-- The document query of valid rules. -/
def emitDocument (compiler : Compiler) (rules : List Rule) : Except CompileError DocumentQuery := do
  let converted ← convertRules rules compiler.schema compiler.settings false
  DocumentQuery.ofRules converted compiler.schema

/-- The search query of valid rules. -/
def emitSearch (compiler : Compiler) (rules : List Rule) : Except CompileError SearchQuery := do
  let converted ← convertRules rules compiler.schema compiler.settings true
  let tree ← Tree.ofRules converted
  let context : SearchContext := ⟨compiler.schema, compiler.settings, requiresScoring converted⟩
  context.query tree

/-- The document query of a rule list. -/
def documentQuery (compiler : Compiler) (rules : List Rule) :
    Except CompileError DocumentQuery := do
  validate rules compiler.schema
  compiler.emitDocument rules

/-- The search query of a rule list. -/
def searchQuery (compiler : Compiler) (rules : List Rule) : Except CompileError SearchQuery := do
  validate rules compiler.schema
  compiler.emitSearch rules

/-- The valid rules of a specification. -/
def rulesOf (compiler : Compiler) (spec : QuerySpec) : Except CompileError (List Rule) := do
  let wire ← RuleEntry.flatten spec.entries
  validateWire wire compiler.schema

/-- The rules of a specification with converted literals. -/
def check (compiler : Compiler) (spec : QuerySpec) : Except CompileError (List Rule) := do
  let rules ← compiler.rulesOf spec
  convertRules rules compiler.schema compiler.settings false

/-- A specification compiled for a document store. -/
def compileDocument (compiler : Compiler) (spec : QuerySpec) :
    Except CompileError DocumentSpec := do
  let rules ← compiler.rulesOf spec
  let query ← compiler.emitDocument rules
  return ⟨spec.productType, query, spec.projection⟩

/-- A specification compiled for a search engine. -/
def compileSearch (compiler : Compiler) (spec : QuerySpec) : Except CompileError SearchQuery := do
  let rules ← compiler.rulesOf spec
  compiler.emitSearch rules

/-- Specifications compiled for a document store, in order. -/
def compileDocuments (compiler : Compiler) (specs : List QuerySpec) :
    Except CompileError (List DocumentSpec) :=
  specs.mapM compiler.compileDocument

/-- Specifications compiled for a search engine, in order. -/
def compileSearches (compiler : Compiler) (specs : List QuerySpec) :
    Except CompileError (List SearchQuery) :=
  specs.mapM compiler.compileSearch

end Compiler

end FilterRules
