import FilterRules.Json.Written
import FilterRules.Spec.Basic

/-!
# Specifications in JSON

A specification and a group are objects, or lists of their fields. An entry is read as a group if
it can be, and as a rule otherwise; since all fields of a rule are optional, an entry that is
nearly a group is a rule with unknown fields.
-/

namespace FilterRules

namespace Json

/-- A string. -/
def text? : Json → Option String
  | .text s => some s
  | _ => none

/-- The items of a list, each of them read in the same way. -/
def list? {α : Type} (item? : Json → Option α) : Json → Option (List α)
  | .array items => items.mapM item?
  | _ => none

end Json

namespace RuleGroup

/-- The group with the given fields, all of them required. -/
def ofFields? (name kind rules : Option Json) : Option RuleGroup := do
  let name ← (← name).text?
  let kind ← (← kind).text?
  let rules ← (← rules).list? WireRule.ofJson?
  some ⟨name, kind, rules⟩

/-- The group that a value describes. -/
def ofJson? : Json → Option RuleGroup
  | .object members =>
    ofFields? (Dictionary.find? "name" members) (Dictionary.find? "type" members)
      (Dictionary.find? "rules" members)
  | .array [name, kind, rules] => ofFields? (some name) (some kind) (some rules)
  | _ => none

/-- The object of a group. -/
def toJson (named : RuleGroup) : Json :=
  Json.ofWrites
    [("name", .text named.name), ("type", .text named.kind),
      ("rules", .array (named.rules.map WireRule.toJson))]

end RuleGroup

namespace RuleEntry

/-- The entry that a value describes. -/
def ofJson? (value : Json) : Option RuleEntry :=
  match RuleGroup.ofJson? value with
  | some named => some (.group named)
  | none => (WireRule.ofJson? value).map .rule

/-- The value of an entry. -/
def toJson : RuleEntry → Json
  | .group named => named.toJson
  | .rule single => single.toJson

end RuleEntry

namespace QuerySpec

/-- The field `attributes`: a list of strings, `null` or nothing. -/
def projectionField? : Option Json → Option (Option (List String))
  | none | some .null => some none
  | some value => (value.list? Json.text?).map some

/-- The specification with the given fields, of which the last is optional. -/
def ofFields? (kind rules projection : Option Json) : Option QuerySpec := do
  let productType ← (← kind).text?
  let entries ← (← rules).list? RuleEntry.ofJson?
  let projection ← projectionField? projection
  some ⟨productType, entries, projection⟩

/-- The specification that a value describes. -/
def ofJson? : Json → Option QuerySpec
  | .object members =>
    ofFields? (Dictionary.find? "type" members) (Dictionary.find? "rules" members)
      (Dictionary.find? "attributes" members)
  | .array [kind, rules] => ofFields? (some kind) (some rules) none
  | .array [kind, rules, projection] => ofFields? (some kind) (some rules) (some projection)
  | _ => none

/-- An object with a type, rules, and the fields to return if there are any named. -/
def envelope (productType : String) (rules : Json) (projection : Option (List String)) : Json :=
  Json.ofWrites <|
    [("type", .text productType), ("rules", rules)] ++
      match projection with
      | some names => [("attributes", .array (names.map .text))]
      | none => []

/-- The object of a specification. -/
def toJson (spec : QuerySpec) : Json :=
  envelope spec.productType (.array (spec.entries.map RuleEntry.toJson)) spec.projection

/-- Specifications as they were given. -/
structure Batch where
  /-- The specifications. -/
  specs : List QuerySpec
  /-- Whether there was one specification and not a list of them. -/
  single : Bool

/-- The specification or the list of specifications in a text. A list is always one of
specifications. -/
def Batch.ofText (text : String) : Except Json.ReadFault Batch :=
  match Json.ofText? text with
  | none => .error .form
  | some (.array items) =>
    match items.mapM QuerySpec.ofJson? with
    | some specs => .ok ⟨specs, false⟩
    | none => .error .content
  | some value =>
    match QuerySpec.ofJson? value with
    | some spec => .ok ⟨[spec], true⟩
    | none => .error .content

end QuerySpec

end FilterRules
