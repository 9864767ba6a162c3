import FilterRules.Conversion
import FilterRules.Rule.Order
import FilterRules.Rule.Wire

/-!
# Valid rule lists

A rule list is valid when it is not empty, every criteria has operands that go with its
relationship, an attribute that the schema knows and literals of its type, and the rules stand in
order. The criteria are checked one after the other before the order is, and the first fault is
the one reported.
-/

namespace FilterRules

namespace Criteria

/-- Whether the operand goes with the relationship. -/
def hasShape (criteria : Criteria) : Bool :=
  match criteria.operand with
  | .value _ => !criteria.relationship.isSet
  | .values literals => criteria.relationship.isSet && !literals.isEmpty

/-- Check a criteria. -/
def check (criteria : Criteria) (rule : Nat) (schema : Schema) : Except CompileError Unit := do
  if !criteria.hasShape then throw (.structural (.valueShape criteria.relationship) rule)
  let declared ← schema.resolve criteria.path rule
  let _ ← criteria.convertLiterals rule declared criteria.operand.literals
  criteria.checkFilter rule schema

end Criteria

/-- Check the criteria of a list whose first rule has the place `index`. -/
def checkCriteriaFrom (index : Nat) (schema : Schema) : List Rule → Except CompileError Unit
  | [] => .ok ()
  | .criteria criteria :: rest => do
    criteria.check index schema
    checkCriteriaFrom (index + 1) schema rest
  | _ :: rest => checkCriteriaFrom (index + 1) schema rest

/-- Check a rule list. -/
def validate (rules : List Rule) (schema : Schema) : Except CompileError Unit := do
  if rules.isEmpty then throw (.structural .emptyRules none)
  checkCriteriaFrom 0 schema rules
  checkOrder rules

/-- The typed rules of a list from JSON, if they are valid. -/
def validateWire (wire : List WireRule) (schema : Schema) : Except CompileError (List Rule) := do
  let rules ← WireRule.decodeAll wire
  validate rules schema
  return rules

end FilterRules
