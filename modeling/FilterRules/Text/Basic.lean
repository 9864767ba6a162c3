/-!
# Characters and pieces of a text

The blank characters are those of the Unicode property White_Space. Trimming removes them from
both ends of a text and leaves those inside it alone. The zero-width space (U+200B) and the byte
order mark (U+FEFF) do not have the property and stay. Only the ten ASCII digits count as digits.

A mark divides a text into pieces. Two marks side by side have an empty piece between them, and
a mark at an end has one outside it, so that a text has one piece more than it has marks and
nothing of it is lost.
-/

namespace FilterRules.Text

/-- The property White_Space. -/
def isBlank (c : Char) : Bool :=
  let point := c.toNat
  (0x09 ≤ point && point ≤ 0x0D) || point == 0x20 || point == 0x85 || point == 0xA0 ||
    point == 0x1680 || (0x2000 ≤ point && point ≤ 0x200A) || point == 0x2028 || point == 0x2029 ||
    point == 0x202F || point == 0x205F || point == 0x3000

/-- A text without the blank characters at its end. -/
def trimEnd : List Char → List Char
  | [] => []
  | c :: rest =>
    match trimEnd rest with
    | [] => if isBlank c then [] else [c]
    | kept => c :: kept

/-- A text without the blank characters at its two ends. -/
def trim (text : List Char) : List Char := trimEnd (text.dropWhile isBlank)

/-- `trim` on strings. -/
def trimmed (text : String) : String := String.ofList (trim text.toList)

/-- The value of a digit. -/
def digit? (c : Char) : Option Nat := if c.isDigit then some (c.toNat - '0'.toNat) else none

/-- The number that a run of digits writes. -/
def digitsValue (digits : List Char) : Nat :=
  digits.foldl (fun value c => 10 * value + (c.toNat - '0'.toNat)) 0

/-- The number that a text writes, if it is a run of digits. -/
def natural? (text : List Char) : Option Nat :=
  if !text.isEmpty && text.all Char.isDigit then some (digitsValue text) else none

end FilterRules.Text

namespace FilterRules.Pieces

/-- The pieces of a text between its marks. -/
def split (mark : Char) : List Char → List (List Char)
  | [] => [[]]
  | c :: rest =>
    if c = mark then [] :: split mark rest
    else
      match split mark rest with
      | [] => [[c]]
      | piece :: pieces => (c :: piece) :: pieces

/-- Pieces with a mark between each two of them. -/
def join (mark : Char) : List (List Char) → List Char
  | [] => []
  | [piece] => piece
  | piece :: next :: pieces => piece ++ mark :: join mark (next :: pieces)

/-- Every text has a piece. -/
theorem split_ne_nil (mark : Char) (text : List Char) : split mark text ≠ [] := by
  cases text with
  | nil => simp [split]
  | cons c rest =>
    by_cases h : c = mark
    · simp [split, h]
    · cases hs : split mark rest <;> simp [split, h, hs]

/-- Joining undoes splitting. -/
@[simp] theorem join_split (mark : Char) (text : List Char) :
    join mark (split mark text) = text := by
  induction text with
  | nil => rfl
  | cons c rest ih =>
    by_cases h : c = mark
    · cases hs : split mark rest with
      | nil => exact absurd hs (split_ne_nil mark rest)
      | cons piece pieces =>
        rw [hs] at ih
        simp [split, h, hs, join, ih]
    · cases hs : split mark rest with
      | nil => exact absurd hs (split_ne_nil mark rest)
      | cons piece pieces =>
        cases pieces with
        | nil => simp_all [split, join]
        | cons next pieces => simp_all [split, join]

end FilterRules.Pieces
