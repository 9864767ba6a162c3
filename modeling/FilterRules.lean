import FilterRules.Calendar.Offset
import FilterRules.CommandLine.Session
import FilterRules.Compilation
import FilterRules.Main
import FilterRules.Proofs.Rule.Grammar
import FilterRules.Proofs.Rule.Viable
import FilterRules.Proofs.Rule.Item
import FilterRules.Proofs.Rule.Building
import FilterRules.Proofs.Rule.Cursor
import FilterRules.Proofs.Rule.Notation
import FilterRules.Proofs.Document.Piece
import FilterRules.Proofs.Document.Outcome
import FilterRules.Proofs.Document.Reduction
import FilterRules.Proofs.Rule.Infix
import FilterRules.Proofs.Conversion
import FilterRules.Proofs.Validity
import FilterRules.Proofs.Rule.Groups
import FilterRules.Proofs.Rule.Acceptance
import FilterRules.Proofs.Schema.Grouping
import FilterRules.Proofs.Schema.Places
import FilterRules.Proofs.Search.Acceptance
import FilterRules.Proofs.Search.Meaning
import FilterRules.Proofs.Search.Combination
import FilterRules.Proofs.Document.Acceptance
import FilterRules.Proofs.Document.Meaning
import FilterRules.Proofs.Document.EmptyGroup
import FilterRules.Proofs.Document.Clause
import FilterRules.Proofs.Document.Rewriting
import FilterRules.Proofs.Document.Intact
import FilterRules.Proofs.Document.Leaves
import FilterRules.Proofs.Document.Interchange
import FilterRules.Proofs.Document.WellFormed
import FilterRules.Proofs.Document.Reading
import FilterRules.Proofs.Rule.Decoding
import FilterRules.Proofs.Spec.Flattening
import FilterRules.Proofs.Spec.Composition
import FilterRules.Proofs.Spec.Isolation
import FilterRules.Proofs.Spec.Conjunction
import FilterRules.Proofs.Agreement
import FilterRules.Proofs.Numeral.Finite
import FilterRules.Proofs.Text.Trimming
import FilterRules.Proofs.Projection
import FilterRules.Proofs.Rule.Travel
import FilterRules.Proofs.Calendar.Instant
import FilterRules.Proofs.Transmission
import FilterRules.Proofs.Document.Legible
import FilterRules.Proofs.Attribute
import FilterRules.Proofs.Rule.Mapping
import FilterRules.Proofs.Spelling.Rules
import FilterRules.Proofs.Spelling.Document
import FilterRules.Proofs.Spelling.Search
import FilterRules.Proofs.Spelling.Queries
import FilterRules.Proofs.Search.Scope
import FilterRules.Proofs.Search.Selection
import FilterRules.Proofs.Search.Leaves
import FilterRules.Proofs.Search.Element
import FilterRules.Proofs.Search.Exclusion
import FilterRules.Proofs.Search.Ranking
import FilterRules.Proofs.Search.Scoring
import FilterRules.Proofs.Search.WellFormed
import FilterRules.Proofs.Locality.Rules
import FilterRules.Proofs.Locality.Document
import FilterRules.Proofs.Locality.Search
import FilterRules.Proofs.Grouping.Blocks
import FilterRules.Proofs.Grouping.Document
import FilterRules.Proofs.Grouping.Search
import FilterRules.Proofs.Reordering.Rules
import FilterRules.Proofs.Reordering.Document
import FilterRules.Proofs.Reordering.Search
import FilterRules.Proofs.Reordering.Queries
import FilterRules.Proofs.Attribute.Grammar
import FilterRules.Proofs.Search.Identity
import FilterRules.Proofs.Grouping.Repetition
import FilterRules.Proofs.Calendar.Reading
import FilterRules.Proofs.Numeral.Whole
import FilterRules.Proofs.Spec.Encoding
