import FilterRules.Json.Written
import FilterRules.Schema.Basic

/-!
# Schemas in JSON

A schema is an object with a type under each path. A type is an object with the fields `type`,
`format` and `array`, of which only the first is required, or a list of their values in this
order. A path that is declared twice keeps its last type, but a field given twice is a fault.
Reading goes through the text from the front, and the first fault decides.
-/

namespace FilterRules

open Json (Written ReadFault)

namespace Json.Written

/-- The fault of a value that is not of the kind asked for: one of form, if the value itself
cannot be read, and one of content otherwise. -/
def mismatch : Written → ReadFault
  | .torn | .number none | .text none => .form
  | _ => .content

/-- Read a string. -/
def string : Written → Except ReadFault String
  | .text (some s) => .ok s
  | other => .error other.mismatch

/-- Read a string or `null`. -/
def optionalString : Written → Except ReadFault (Option String)
  | .null => .ok none
  | other => other.string.map some

/-- Read a truth value. -/
def boolean : Written → Except ReadFault Bool
  | .bool b => .ok b
  | other => .error other.mismatch

/-- A list or object must be closed after its last part. -/
def finish {α : Type} (closed : Bool) (value : α) : Except ReadFault α :=
  if closed then .ok value else .error .form

end Json.Written

/-- Read the name of a kind. It may also stand as the only key of an object, over `null`. -/
def Kind.ofWritten : Written → Except ReadFault Kind
  | .text (some name) => .ok (.ofName name)
  | .object ((some name, .null) :: rest) closed =>
    if rest.isEmpty && closed then .ok (.ofName name) else .error .form
  | .object ((some _, other) :: _) _ => .error other.mismatch
  | _ => .error .form

namespace AttributeType

/-- The fields of a type that were read so far. -/
structure Fields where
  /-- The field `type`. -/
  kind : Option Kind := none
  /-- The field `format`. -/
  format : Option (Option String) := none
  /-- The field `array`. -/
  isArray : Option Bool := none

/-- Read the fields of an object. Unknown fields are passed over. -/
def Fields.read (fields : Fields) : List (Option String × Written) → Except ReadFault Fields
  | [] => .ok fields
  | (none, _) :: _ => .error .form
  | (some key, value) :: rest =>
    if key = "type" then do
      if fields.kind.isSome then throw .content
      let kind ← Kind.ofWritten value
      read { fields with kind := some kind } rest
    else if key = "format" then do
      if fields.format.isSome then throw .content
      let format ← value.optionalString
      read { fields with format := some format } rest
    else if key = "array" then do
      if fields.isArray.isSome then throw .content
      let isArray ← value.boolean
      read { fields with isArray := some isArray } rest
    else read fields rest

/-- The type that the fields of an object describe. -/
def Fields.declared (fields : Fields) : Except ReadFault AttributeType :=
  match fields.kind with
  | some kind => .ok ⟨kind, fields.format.getD none, fields.isArray.getD false⟩
  | none => .error .content

/-- Read the values of a list in the order of the fields. -/
def ofItems (items : List Written) (closed : Bool) : Except ReadFault AttributeType :=
  match items with
  | [] => do
    Written.finish closed ()
    throw .content
  | kind :: rest => do
    let kind ← Kind.ofWritten kind
    match rest with
    | [] => Written.finish closed { kind }
    | format :: rest =>
      let format ← format.optionalString
      match rest with
      | [] => Written.finish closed { kind, format }
      | isArray :: rest =>
        let isArray ← isArray.boolean
        Written.finish (closed && rest.isEmpty) { kind, format, isArray }

/-- Read a type. -/
def ofWritten : Written → Except ReadFault AttributeType
  | .object members closed => do
    let fields ← Fields.read {} members
    Written.finish closed ()
    fields.declared
  | .array items closed => ofItems items closed
  | other => .error other.mismatch

/-- Read a type from a value. -/
def ofJson? (value : Json) : Option AttributeType := (ofWritten (Written.ofValue value)).toOption

/-- The JSON value of a type; the format is left out when there is none. -/
def toJson (declared : AttributeType) : Json :=
  Json.ofWrites <|
    [("type", .text declared.kind.name), ("array", .bool declared.isArray)] ++
      match declared.format with
      | some format => [("format", .text format)]
      | none => []

end AttributeType

namespace Schema

/-- Add the types that the members of an object declare. -/
def declare (schema : Schema) : List (Option String × Written) → Except ReadFault Schema
  | [] => .ok schema
  | (none, _) :: _ => .error .form
  | (some path, value) :: rest => do
    let declared ← AttributeType.ofWritten value
    declare (schema.insert path declared) rest

/-- Read a schema. -/
def ofWritten : Written → Except ReadFault Schema
  | .object members closed => do
    let schema ← declare {} members
    Written.finish closed schema
  | other => .error other.mismatch

/-- Read a schema from a value. -/
def ofJson? (value : Json) : Option Schema := (ofWritten (Written.ofValue value)).toOption

/-- Read a schema from a text that holds nothing else. -/
def ofText (text : String) : Except ReadFault Schema := do
  let (written, complete) := Written.ofText text
  let schema ← ofWritten written
  Written.finish complete schema

/-- The JSON value of a schema. -/
def toJson (schema : Schema) : Json :=
  Json.ofWrites (schema.entries.map fun (path, declared) => (path, declared.toJson))

end Schema

end FilterRules
