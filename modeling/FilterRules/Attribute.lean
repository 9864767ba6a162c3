import FilterRules.Text.Basic
import FilterRules.Text.Dotted

/-!
# Attribute paths

An attribute is a dotted path that may select one element of a list by a key of its elements:
`classifications[type:netbase].code` is the field `code` of that element of `classifications`
whose `type` is `netbase`. Blanks around segments, key and value do not belong to them. The schema
knows the path without the selection.
-/

namespace FilterRules

/-- A parsed attribute path. -/
inductive AttributePath where
  /-- A path without a selection. -/
  | plain (segments : List String)
  /-- The field `element` of those elements of the list `array` whose `key` is `value`. -/
  | filtered (array : List String) (key value : String) (element : List String)
deriving DecidableEq

namespace AttributePath

/-- The trimmed segments of a text, if none of them is blank. -/
def segments? (text : List Char) : Option (List String) :=
  let pieces := (Pieces.split '.' text).map Text.trim
  if pieces.any List.isEmpty then none else some (pieces.map String.ofList)

/-- The four parts of a path with a selection, as they stand in its text. -/
structure Parts where
  /-- What stands before the bracket. -/
  array : List Char
  /-- What stands between the bracket and the colon. -/
  key : List Char
  /-- What stands between the colon and the closing bracket. -/
  value : List Char
  /-- What stands behind the dot after the bracket. -/
  element : List Char

/-- A character that may stand outside the brackets. -/
def isOuter (c : Char) : Bool := c != '[' && c != ']' && c != ':'

/-- A character of a key. -/
def isKey (c : Char) : Bool := isOuter c && c != '.'

/-- A character of a value. -/
def isValue (c : Char) : Bool := c != '[' && c != ']'

/-- The parts of a text of the form `array[key:value].element`, none of them empty. -/
def parts? (text : List Char) : Option Parts :=
  match text.dropWhile isOuter with
  | '[' :: inner =>
    match inner.dropWhile isKey with
    | ':' :: inside =>
      match inside.dropWhile isValue with
      | ']' :: '.' :: element =>
        let parts : Parts :=
          ⟨text.takeWhile isOuter, inner.takeWhile isKey, inside.takeWhile isValue, element⟩
        if parts.array.isEmpty || parts.key.isEmpty || parts.value.isEmpty || element.isEmpty ||
            !element.all isOuter then none
        else some parts
      | _ => none
    | _ => none
  | _ => none

/-- The path of a text. -/
def ofChars? (text : List Char) : Option AttributePath :=
  match parts? text with
  | some parts => do
    let array ← segments? parts.array
    let element ← segments? parts.element
    some (.filtered array (String.ofList (Text.trim parts.key))
      (String.ofList (Text.trim parts.value)) element)
  | none => if text.all isValue then (segments? text).map .plain else none

/-- The path of a string. -/
def parse? (text : String) : Option AttributePath := ofChars? text.toList

/-- The path that the schema knows: without the selection. -/
def schemaPath : AttributePath → String
  | .plain segments => Dotted.ofSegments segments
  | .filtered array _ _ element => Dotted.ofSegments (array ++ element)

/-- The path of the list that a selection is made from. -/
def arrayPath? : AttributePath → Option String
  | .plain _ => none
  | .filtered array _ _ _ => some (Dotted.ofSegments array)

/-- The path below a selected element. -/
def elementPath? : AttributePath → Option String
  | .plain _ => none
  | .filtered _ _ _ element => some (Dotted.ofSegments element)

/-- Whether the path selects an element. -/
def isFiltered : AttributePath → Bool
  | .plain _ => false
  | .filtered .. => true

end AttributePath

end FilterRules
