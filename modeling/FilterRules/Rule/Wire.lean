import FilterRules.Fault
import FilterRules.Json.Printer
import FilterRules.Text.Basic

/-!
# Rules in JSON

A rule arrives as an object whose fields may all be missing, or as a list of their values. Which
fields a rule needs depends on its type and, for a criteria, on its relationship; decoding checks
this and gives the typed rule.
-/

namespace FilterRules

/-- A rule as it arrives. -/
structure WireRule where
  /-- The field `type`. -/
  kind : Option String := none
  /-- The field `attribute`. -/
  path : Option String := none
  /-- The field `relationship`. -/
  relationship : Option String := none
  /-- The field `value`. -/
  value : Option Json := none
  /-- The field `values`. -/
  values : Option Json := none

namespace WireRule

/-- A field that holds a string; `null` is as good as no field. -/
def textField? : Option Json → Option (Option String)
  | none | some .null => some none
  | some (.text s) => some (some s)
  | some _ => none

/-- A field that holds any value; `null` is as good as no field. -/
def valueField : Option Json → Option Json
  | some .null => none
  | field => field

/-- The rule with the given fields, if the first three hold strings. -/
def ofFields? (kind path relationship value values : Option Json) : Option WireRule := do
  let kind ← textField? kind
  let path ← textField? path
  let relationship ← textField? relationship
  some ⟨kind, path, relationship, valueField value, valueField values⟩

/-- The rule that a value describes: an object, whose unknown fields mean nothing, or a list of at
most five fields in their order. -/
def ofJson? : Json → Option WireRule
  | .object members =>
    ofFields? (Dictionary.find? "type" members) (Dictionary.find? "attribute" members)
      (Dictionary.find? "relationship" members) (Dictionary.find? "value" members)
      (Dictionary.find? "values" members)
  | .array items =>
    if items.length ≤ 5 then ofFields? items[0]? items[1]? items[2]? items[3]? items[4]? else none
  | _ => none

/-- One field of an object, or none. -/
def field (key : String) : Option Json → List (String × Json)
  | some value => [(key, value)]
  | none => []

/-- The object of a rule; missing fields are left out. -/
def toJson (rule : WireRule) : Json :=
  Json.ofWrites <|
    field "type" (rule.kind.map .text) ++ field "attribute" (rule.path.map .text) ++
      field "relationship" (rule.relationship.map .text) ++ field "value" rule.value ++
      field "values" rule.values

/-- The type of a mark. -/
def separatorKind : String := "separator"

/-- The type of a connective. -/
def logicalKind : String := "logical"

/-- The type of a comparison. -/
def criteriaKind : String := "criteria"

/-- A mark. -/
def separator (mark : Separator) : WireRule :=
  { kind := some separatorKind, value := some (.text mark.keyword) }

/-- A connective. -/
def logical (connective : Connective) : WireRule :=
  { kind := some logicalKind, value := some (.text connective.keyword) }

/-- A comparison. -/
def criteria (criteria : Criteria) : WireRule :=
  { kind := some criteriaKind
    path := some criteria.path
    relationship := some criteria.relationship.keyword
    value := match criteria.operand with
      | .value literal => some literal.toJson
      | .values _ => none
    values := match criteria.operand with
      | .value _ => none
      | .values literals => some (.array (literals.map Literal.toJson)) }

/-- The form in which a rule travels. -/
def ofRule : Rule → WireRule
  | .separator mark => separator mark
  | .logical connective => logical connective
  | .criteria comparison => criteria comparison

/-- The word of a separator or logical rule. -/
def word (rule : WireRule) : String :=
  match rule.value with
  | some (.text s) => s
  | some other => other.compact
  | none => ""

/-- The operand of a criteria: one literal for a relationship to one value, and a list of
literals, not empty, for a relationship to several. -/
def operand? (rule : WireRule) (relationship : Relationship) : Option Operand :=
  match relationship.isSet, valueField rule.value, valueField rule.values with
  | true, none, some (.array items) =>
    if items.isEmpty then none else (items.mapM Literal.ofJson?).map .values
  | false, some value, none => (Literal.ofJson? value).map .value
  | _, _, _ => none

/-- The typed criteria of a rule. -/
def decodeCriteria (rule : WireRule) (index : Nat) : Except CompileError Criteria := do
  let path := Text.trimmed (rule.path.getD "")
  if path.isEmpty then throw (.structural .missingAttribute index)
  let word := rule.relationship.getD ""
  match Relationship.ofKeyword? word with
  | none => throw (.structural (.unknownRelationship word) index)
  | some relationship =>
    match rule.operand? relationship with
    | none => throw (.structural (.valueShape relationship) index)
    | some operand => return { path, relationship, operand }

/-- The typed form of a rule; `index` is its place in the list. -/
def decode (rule : WireRule) (index : Nat) : Except CompileError Rule :=
  let kind := rule.kind.getD ""
  if kind = separatorKind then
    match Separator.ofKeyword? rule.word with
    | some mark => .ok (.separator mark)
    | none => .error (.structural (.invalidSeparator rule.word) index)
  else if kind = logicalKind then
    match Connective.ofKeyword? rule.word with
    | some connective => .ok (.logical connective)
    | none => .error (.structural (.invalidLogical rule.word) index)
  else if kind = criteriaKind then (rule.decodeCriteria index).map .criteria
  else .error (.structural (.unknownRuleType kind) index)

/-- The typed forms of the rules of a list whose first rule has the place `index`. -/
def decodeFrom (index : Nat) : List WireRule → Except CompileError (List Rule)
  | [] => .ok []
  | rule :: rest => do
    let decoded ← rule.decode index
    let others ← decodeFrom (index + 1) rest
    return decoded :: others

/-- The typed forms of a list of rules, which must not be empty. -/
def decodeAll (rules : List WireRule) : Except CompileError (List Rule) :=
  if rules.isEmpty then .error (.structural .emptyRules none) else decodeFrom 0 rules

end WireRule

end FilterRules
