import FilterRules.Json.Token

/-!
# JSON as it stands in a text

A written value keeps what a value forgets: the order of the members of an object, repeated keys,
and values out of range. A text that breaks off still has a written form, up to the place where it
breaks; lists and objects that were open there say so. A reader that goes through a written form
from the front therefore meets the first fault of the text first, whether it is one of form or of
content.
-/

namespace FilterRules.Json

/-- A value as it stands in a text. -/
inductive Written where
  /-- The text broke off where the value should stand. -/
  | torn
  /-- The word `null`. -/
  | null
  /-- The word `true` or `false`. -/
  | bool (b : Bool)
  /-- A number, with its value if it has one. -/
  | number (value : Option JsonNumber)
  /-- A string, with its value if it has one. -/
  | text (value : Option String)
  /-- A list, and whether its closing bracket was reached. -/
  | array (items : List Written) (closed : Bool)
  /-- An object with its keys as strings, and whether its closing bracket was reached. -/
  | object (members : List (Option String × Written)) (closed : Bool)

namespace Written

/-- A list or object that is open while its text is read; the last entry stands first. -/
inductive Frame where
  /-- An open list. -/
  | array (items : List Written)
  /-- An open object, and the key whose value is being read. -/
  | object (members : List (Option String × Written)) (key : Option (Option String))

/-- What may stand next in a text. -/
inductive Expected where
  /-- A value. -/
  | value
  /-- A value or the end of a list that has no items yet. -/
  | firstItem
  /-- A key or the end of an object that has no members yet. -/
  | firstKey
  /-- A key. -/
  | key
  /-- The colon behind a key. -/
  | colon
  /-- A comma or the end of a list or object. -/
  | separator
  /-- Nothing more. -/
  | nothing
deriving DecidableEq

/-- The reading of a text up to some place. -/
structure Reading where
  /-- The open lists and objects, the innermost first. -/
  frames : List Frame
  /-- What may stand next. -/
  expected : Expected
  /-- The value of the whole text, once it is complete. -/
  whole : Option Written

/-- The reading of a text before its first token. -/
def Reading.start : Reading := ⟨[], .value, none⟩

/-- A complete value goes into the innermost open list or object. -/
def Reading.complete (value : Written) : List Frame → Option Reading
  | [] => some ⟨[], .nothing, some value⟩
  | .array items :: frames => some ⟨.array (value :: items) :: frames, .separator, none⟩
  | .object members (some key) :: frames =>
    some ⟨.object ((key, value) :: members) none :: frames, .separator, none⟩
  | .object _ none :: _ => none

/-- Whether a value may stand next. -/
def Reading.wantsValue (reading : Reading) : Bool :=
  reading.expected == .value || reading.expected == .firstItem

/-- A value without parts, where a value may stand. -/
def Reading.scalar (reading : Reading) (value : Written) : Option Reading :=
  if reading.wantsValue then Reading.complete value reading.frames else none

/-- A string is a key or a value. -/
def Reading.string (reading : Reading) (value : Option String) : Option Reading :=
  match reading.expected, reading.frames with
  | .firstKey, .object members _ :: frames
  | .key, .object members _ :: frames =>
    some ⟨.object members (some value) :: frames, .colon, none⟩
  | _, _ => reading.scalar (.text value)

/-- The end of the innermost list. -/
def Reading.closeArray (reading : Reading) : Option Reading :=
  match reading.frames with
  | .array items :: frames =>
    if reading.expected = .firstItem ∨ reading.expected = .separator then
      Reading.complete (.array items.reverse true) frames
    else none
  | _ => none

/-- The end of the innermost object. -/
def Reading.closeObject (reading : Reading) : Option Reading :=
  match reading.frames with
  | .object members none :: frames =>
    if reading.expected = .firstKey ∨ reading.expected = .separator then
      Reading.complete (.object members.reverse true) frames
    else none
  | _ => none

/-- A comma between two items or two members. -/
def Reading.comma (reading : Reading) : Option Reading :=
  if reading.expected = .separator then
    match reading.frames with
    | .array _ :: _ => some { reading with expected := .value }
    | .object _ _ :: _ => some { reading with expected := .key }
    | [] => none
  else none

/-- The reading after one more token, if the token may stand there. -/
def Reading.step (reading : Reading) : Token → Option Reading
  | .openArray =>
    if reading.wantsValue then some ⟨.array [] :: reading.frames, .firstItem, none⟩ else none
  | .openObject =>
    if reading.wantsValue then some ⟨.object [] none :: reading.frames, .firstKey, none⟩ else none
  | .closeArray => reading.closeArray
  | .closeObject => reading.closeObject
  | .comma => reading.comma
  | .colon => if reading.expected = .colon then some { reading with expected := .value } else none
  | .null => reading.scalar .null
  | .bool b => reading.scalar (.bool b)
  | .number value => reading.scalar (.number value)
  | .text value => reading.string value
  | .broken => none

/-- The value of a text that breaks off inside open lists and objects. -/
def tear (inner : Option Written) : List Frame → Written
  | [] => inner.getD .torn
  | .array items :: frames => tear (some (.array (items.reverse ++ inner.toList) false)) frames
  | .object members none :: frames => tear (some (.object members.reverse false)) frames
  | .object members (some key) :: frames =>
    tear (some (.object (members.reverse ++ [(key, inner.getD .torn)]) false)) frames

/-- Go through the tokens: the value, and whether the text holds nothing else. -/
def Reading.run (reading : Reading) : List Token → Written × Bool
  | [] =>
    match reading.whole with
    | some value => (value, true)
    | none => (tear none reading.frames, false)
  | token :: tokens =>
    match reading.whole, reading.step token with
    | some value, _ => (value, false)
    | none, some next => next.run tokens
    | none, none => (tear none reading.frames, false)

/-- The value at the front of a text, and whether the text holds nothing else. -/
def ofText (text : String) : Written × Bool := Reading.start.run (Token.ofText text.toList)

mutual

/-- The value of a written form with at most `depth` lists and objects inside each other. There is
none when a part is broken off or has no value of its own. -/
def value? (depth : Nat) : Written → Option Json
  | .torn => none
  | .null => some .null
  | .bool b => some (.bool b)
  | .number value => value.map .number
  | .text value => value.map .text
  | .array items closed =>
    match depth, closed with
    | depth + 1, true => (values? depth items).map .array
    | _, _ => none
  | .object members closed =>
    match depth, closed with
    | depth + 1, true => (memberValues? depth members).map ofWrites
    | _, _ => none

/-- The values of the items of a list. -/
def values? (depth : Nat) : List Written → Option (List Json)
  | [] => some []
  | item :: items => do
    let value ← value? depth item
    let values ← values? depth items
    some (value :: values)

/-- The keyed values of the members of an object. -/
def memberValues? (depth : Nat) : List (Option String × Written) → Option (List (String × Json))
  | [] => some []
  | (key, item) :: members => do
    let key ← key
    let value ← value? depth item
    let values ← memberValues? depth members
    some ((key, value) :: values)

end

mutual

/-- The written form of a value, with its members in the order of their keys. -/
def ofValue : Json → Written
  | .null => .null
  | .bool b => .bool b
  | .number n => .number (some n)
  | .text s => .text (some s)
  | .array items => .array (ofValues items) true
  | .object members => .object (ofMembers members) true

/-- The written forms of the items of a list. -/
def ofValues : List Json → List Written
  | [] => []
  | item :: items => ofValue item :: ofValues items

/-- The written forms of the members of an object. -/
def ofMembers : List (String × Json) → List (Option String × Written)
  | [] => []
  | (key, value) :: members => (some key, ofValue value) :: ofMembers members

end

end Written

/-- The number of lists and objects that may stand inside each other. -/
def maxDepth : Nat := 127

/-- The value of a text, if the text is one value and nothing else. -/
def ofText? (text : String) : Option Json :=
  match Written.ofText text with
  | (written, true) => written.value? maxDepth
  | (_, false) => none

/-- Why a text or a value could not be read. -/
inductive ReadFault where
  /-- The text is not one JSON value, or a value in it cannot be represented. -/
  | form
  /-- The value is not of the kind that was asked for. -/
  | content
deriving DecidableEq

end FilterRules.Json
