import FilterRules.Rule.Basic

/-!
# Why a rule list does not compile

Each cause has a constructor; the wording is in the functions named `message`. A cause that can be
pinned on one rule carries the place of that rule in its list, counted from 0.
-/

namespace FilterRules

/-- The type that a literal should have had. -/
inductive ExpectedType where
  /-- A number. -/
  | number
  /-- A truth value. -/
  | boolean
  /-- A date. -/
  | date
  /-- None: nothing can be compared with the attribute. -/
  | unsupported
deriving DecidableEq

/-- The wording for a literal of another type. -/
def ExpectedType.message : ExpectedType → String
  | .number => "invalid value, a number value is expected"
  | .boolean => "invalid value, a boolean value is expected"
  | .date => "invalid value, a date value is expected"
  | .unsupported => "invalid data type"

/-- What is wrong with the form or the order of rules. -/
inductive StructuralFault where
  /-- There are no rules. -/
  | emptyRules
  /-- A rule has no known type. -/
  | unknownRuleType (name : String)
  /-- A separator is neither mark. -/
  | invalidSeparator (word : String)
  /-- A logical rule is neither connective. -/
  | invalidLogical (word : String)
  /-- A criteria has no known relationship. -/
  | unknownRelationship (word : String)
  /-- A criteria has no attribute. -/
  | missingAttribute
  /-- A criteria's value or values do not go with its relationship. -/
  | valueShape (relationship : Relationship)
  /-- A rule stands where it may not stand. -/
  | improperOrder
  /-- A group has both connectives. -/
  | mixedConnectives
  /-- Opening and closing marks do not pair up. -/
  | unbalancedSeparators
  /-- There is more than one group on top. -/
  | multipleRoots
  /-- Named groups stand beside plain rules. -/
  | mixedGroups
  /-- A named group has another type. -/
  | invalidGroup (name : String)
  /-- An attribute is not a path. -/
  | invalidPath (path : String)
deriving DecidableEq

/-- The wording for a fault of form or order. -/
def StructuralFault.message : StructuralFault → String
  | .emptyRules => "rules must be a non-empty list"
  | .unknownRuleType name => s!"unknown rule type '{name}'"
  | .invalidSeparator word => s!"invalid separator value '{word}', expected BEGIN or END"
  | .invalidLogical word => s!"invalid logical value '{word}', expected AND or OR"
  | .unknownRelationship word => s!"unknown relationship '{word}'"
  | .missingAttribute => "criteria rule is missing its attribute"
  | .valueShape relationship =>
    let word := relationship.keyword
    if relationship.isSet then s!"relationship {word} requires a non-empty 'values' list"
    else s!"relationship {word} requires a single non-null 'value'"
  | .improperOrder => "rules are not in proper order"
  | .mixedConnectives => "multiple logical operators between a single query clause"
  | .unbalancedSeparators => "unbalanced BEGIN/END separators"
  | .multipleRoots => "rules must form a single top-level group"
  | .mixedGroups => "grouped and ungrouped rules cannot be mixed"
  | .invalidGroup name => s!"rule group '{name}' must have type 'group'"
  | .invalidPath path => s!"invalid attribute path '{path}'"

/-- What stands in the way of a query for rules of the right form. -/
inductive EmissionFault where
  /-- The rules do not come down to one query. -/
  | malformedExpression
  /-- A connective joins fewer than two items. -/
  | minimumCriteria
  /-- A relationship without its negation has no form in the query. Each has one, in both kinds of
  query. -/
  | unsupportedRelationship (relationship : Relationship)
  /-- A criteria has several values where it needs one, or one where it needs several. -/
  | operandShape (relationship : Relationship)
  /-- The value of a selection does not have the type of the selected key. -/
  | filterValue (path : String) (expected : ExpectedType)
deriving DecidableEq

/-- The wording for a fault of a query. -/
def EmissionFault.message : EmissionFault → String
  | .malformedExpression => "malformed rule expression"
  | .minimumCriteria => "logical operation needs minimum 2 criteria"
  | .unsupportedRelationship relationship =>
    let word := relationship.keyword
    s!"unsupported operator '{word}'"
  | .operandShape relationship =>
    let word := relationship.keyword
    s!"operand does not fit relationship {word}"
  | .filterValue path expected =>
    let expectation := expected.message
    s!"{expectation} (element filter on '{path}')"

/-- Why a rule list does not compile. -/
inductive CompileError where
  /-- The form or the order of the rules is wrong, at the given rule if one is to blame. -/
  | structural (fault : StructuralFault) (rule : Option Nat)
  /-- The schema does not know an attribute. -/
  | unknownAttribute (path : String)
  /-- A literal does not have the type of its attribute. -/
  | conversion (expected : ExpectedType) (path : String) (value : Literal) (rule : Nat)
  /-- No query can be made. -/
  | emission (fault : EmissionFault)
deriving DecidableEq

/-- The wording for an error. -/
def CompileError.message : CompileError → String
  | .structural fault none => fault.message
  | .structural fault (some rule) =>
    let reason := fault.message
    s!"{reason} (rule {rule})"
  | .unknownAttribute path => s!"attribute '{path}' is not defined in the schema"
  | .conversion expected path value rule =>
    let expectation := expected.message
    let shown := value.display
    s!"{expectation} (attribute '{path}', value {shown}, rule {rule})"
  | .emission fault => fault.message

end FilterRules
