import FilterRules.Json.Basic
import FilterRules.Numeral.Layout

/-!
# The text of a JSON value

There are two forms: compact, without any blanks, and indented by two spaces a level with one item
or member a line. Both write members in the order of their keys and escape only what JSON requires.
-/

namespace FilterRules.Json

/-- A character inside a string: quotes, backslashes and control characters are escaped. -/
def escaped (c : Char) : List Char :=
  match c with
  | '"' => ['\\', '"']
  | '\\' => ['\\', '\\']
  | '\x08' => ['\\', 'b']
  | '\x0c' => ['\\', 'f']
  | '\n' => ['\\', 'n']
  | '\r' => ['\\', 'r']
  | '\t' => ['\\', 't']
  | _ =>
    if c < ' ' then
      let digits := Nat.toDigits 16 c.toNat
      ['\\', 'u'] ++ List.replicate (4 - digits.length) '0' ++ digits
    else [c]

/-- A string between quotes. -/
def quotedText (s : String) : String := String.ofList ('"' :: s.toList.flatMap escaped ++ ['"'])

/-- The text of a number. -/
def numberText : JsonNumber → String
  | .whole n _ => Numeral.integerText n
  | .real x _ => Numeral.text .json x

/-- Parts between two brackets, with a comma between each two of them. -/
def bracketed (opening closing : String) (parts : List String) : String :=
  opening ++ ",".intercalate parts ++ closing

/-- Parts between two brackets, each on a line of its own; `level` is the depth of the brackets. -/
def stacked (opening closing : String) (level : Nat) (parts : List String) : String :=
  if parts.isEmpty then opening ++ closing
  else
    let margin := String.ofList (List.replicate (2 * level) ' ')
    let lines := parts.map fun part => margin ++ "  " ++ part
    opening ++ "\n" ++ ",\n".intercalate lines ++ "\n" ++ margin ++ closing

mutual

/-- The text without blanks. -/
def compact : Json → String
  | .null => "null"
  | .bool b => if b then "true" else "false"
  | .number n => numberText n
  | .text s => quotedText s
  | .array items => bracketed "[" "]" (compactItems items)
  | .object members => bracketed "\x7b" "\x7d" (compactMembers members)

/-- The texts of the items of a list. -/
def compactItems : List Json → List String
  | [] => []
  | item :: items => compact item :: compactItems items

/-- The texts of the members of an object. -/
def compactMembers : List (String × Json) → List String
  | [] => []
  | (key, value) :: members => (quotedText key ++ ":" ++ compact value) :: compactMembers members

end

mutual

/-- The indented text, for a value `level` brackets deep. -/
def indented (level : Nat) : Json → String
  | .null => "null"
  | .bool b => if b then "true" else "false"
  | .number n => numberText n
  | .text s => quotedText s
  | .array items => stacked "[" "]" level (indentedItems (level + 1) items)
  | .object members => stacked "\x7b" "\x7d" level (indentedMembers (level + 1) members)

/-- The indented texts of the items of a list. -/
def indentedItems (level : Nat) : List Json → List String
  | [] => []
  | item :: items => indented level item :: indentedItems level items

/-- The indented texts of the members of an object. -/
def indentedMembers (level : Nat) : List (String × Json) → List String
  | [] => []
  | (key, value) :: members =>
    (quotedText key ++ ": " ++ indented level value) :: indentedMembers level members

end

/-- The indented text of a whole value. -/
def pretty (value : Json) : String := indented 0 value

end FilterRules.Json
