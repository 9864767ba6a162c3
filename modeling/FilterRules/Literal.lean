import FilterRules.Calendar.Instant
import FilterRules.Json.Basic
import FilterRules.Numeral.Layout

/-!
# Literals

A literal is the value that an attribute is compared with. Literals that come from JSON are truth
values, numbers and texts; a date arises only when a text is converted for an attribute that
holds dates.
-/

namespace FilterRules

/-- A value to compare an attribute with. -/
inductive Literal where
  /-- A truth value. -/
  | boolean (b : Bool)
  /-- A whole number of 64 bits. -/
  | integer (n : Int64)
  /-- Any other number. -/
  | real (x : Binary64)
  /-- A text. -/
  | text (s : String)
  /-- An instant. -/
  | date (d : Instant)
deriving DecidableEq

namespace Literal

/-- The name of a literal's type. -/
def typeName : Literal → String
  | .boolean _ => "boolean"
  | .integer _ => "integer"
  | .real _ => "float"
  | .text _ => "string"
  | .date _ => "date"

/-- A literal as a text. Numbers have no exponent. -/
def asText : Literal → String
  | .boolean b => if b then "true" else "false"
  | .integer n => Numeral.integerText n.toInt
  | .real x => Numeral.text .plain x
  | .text s => s
  | .date d => d.isoText

/-- A literal in a message: a text stands between quotes, as it is. -/
def display : Literal → String
  | .text s => "\"" ++ s ++ "\""
  | other => other.asText

/-- The literal of a JSON value; `null`, lists and objects are none. A whole number that needs an
unsigned type becomes a floating-point number. -/
def ofJson? : Json → Option Literal
  | .bool b => some (.boolean b)
  | .number (.whole n _) =>
    some (if n < 0x8000000000000000 then .integer (Int64.ofInt n) else .real (Binary64.ofRatio false n.toNat 1))
  | .number (.real x _) => some (.real x)
  | .text s => some (.text s)
  | _ => none

/-- The JSON value of a literal; dates are texts, and numbers that are not finite are `null`. -/
def toJson : Literal → Json
  | .boolean b => .bool b
  | .integer n => Json.ofInt64 n
  | .real x => Json.ofBinary64 x
  | .text s => .text s
  | .date d => .text d.isoText

end Literal

end FilterRules
