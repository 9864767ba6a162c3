import FilterRules.Literal

/-!
# Rules

A rule list is an expression in infix notation: criteria joined by connectives, with groups between
opening and closing marks in place of brackets. A relationship compares an attribute with one value
or with several. Two of them are the negation of another one; each relationship is a test, negated
or not.
-/

namespace FilterRules

/-- How an attribute is compared. -/
inductive Relationship where
  /-- Equal to the value. -/
  | equal
  /-- Not equal to the value. -/
  | notEqual
  /-- Greater than the value. -/
  | greater
  /-- Less than the value. -/
  | less
  /-- Greater than or equal to the value. -/
  | greaterOrEqual
  /-- Less than or equal to the value. -/
  | lessOrEqual
  /-- One of the values. -/
  | oneOf
  /-- None of the values. -/
  | noneOf
  /-- A list with all the values. -/
  | allOf
  /-- A text that the value matches by relevance. -/
  | like
  /-- A text that starts with the value. -/
  | startsWith
deriving DecidableEq

/-- A comparison without negation. -/
inductive Test where
  /-- Equal to the value. -/
  | equal
  /-- Greater than the value. -/
  | greater
  /-- Less than the value. -/
  | less
  /-- Greater than or equal to the value. -/
  | greaterOrEqual
  /-- Less than or equal to the value. -/
  | lessOrEqual
  /-- One of the values. -/
  | oneOf
  /-- A list with all the values. -/
  | allOf
  /-- A text that the value matches by relevance. -/
  | like
  /-- A text that starts with the value. -/
  | startsWith
deriving DecidableEq

/-- The relationship that makes a test without negation. -/
def Test.relationship : Test → Relationship
  | .equal => .equal
  | .greater => .greater
  | .less => .less
  | .greaterOrEqual => .greaterOrEqual
  | .lessOrEqual => .lessOrEqual
  | .oneOf => .oneOf
  | .allOf => .allOf
  | .like => .like
  | .startsWith => .startsWith

namespace Relationship

/-- All relationships. -/
def all : List Relationship :=
  [.equal, .notEqual, .greater, .less, .greaterOrEqual, .lessOrEqual, .oneOf, .noneOf, .allOf,
    .like, .startsWith]

/-- The word for a relationship. -/
def keyword : Relationship → String
  | .equal => "EQ"
  | .notEqual => "NE"
  | .greater => "GT"
  | .less => "LT"
  | .greaterOrEqual => "GE"
  | .lessOrEqual => "LE"
  | .oneOf => "IN"
  | .noneOf => "NI"
  | .allOf => "ALL"
  | .like => "LIKE"
  | .startsWith => "PREFIX"

/-- The relationship of a word. -/
def ofKeyword? (word : String) : Option Relationship := all.find? fun r => r.keyword == word

/-- Whether a relationship compares with several values. -/
def isSet : Relationship → Bool
  | .oneOf | .noneOf | .allOf => true
  | _ => false

/-- Whether a relationship ranks documents by relevance. -/
def isFullText (r : Relationship) : Bool := r == .like

/-- The test that a relationship makes or negates. -/
def test : Relationship → Test
  | .equal | .notEqual => .equal
  | .greater => .greater
  | .less => .less
  | .greaterOrEqual => .greaterOrEqual
  | .lessOrEqual => .lessOrEqual
  | .oneOf | .noneOf => .oneOf
  | .allOf => .allOf
  | .like => .like
  | .startsWith => .startsWith

/-- Whether a relationship negates its test. -/
def isNegated : Relationship → Bool
  | .notEqual | .noneOf => true
  | _ => false

/-- A relationship without its negation. -/
def positive (r : Relationship) : Relationship := r.test.relationship

/-- The word of every relationship names that relationship. -/
theorem ofKeyword?_keyword (r : Relationship) : ofKeyword? r.keyword = some r := by
  cases r <;> rfl

end Relationship

/-- What joins the items of a group. -/
inductive Connective where
  /-- All items hold. -/
  | and
  /-- Some item holds. -/
  | or
deriving DecidableEq

/-- The word for a connective. -/
def Connective.keyword : Connective → String
  | .and => "AND"
  | .or => "OR"

/-- The connective of a word. -/
def Connective.ofKeyword? (word : String) : Option Connective :=
  if word = "AND" then some .and else if word = "OR" then some .or else none

/-- The mark at one end of a group. -/
inductive Separator where
  /-- The mark in front of a group. -/
  | opening
  /-- The mark behind a group. -/
  | closing
deriving DecidableEq

/-- The word for a mark. -/
def Separator.keyword : Separator → String
  | .opening => "BEGIN"
  | .closing => "END"

/-- The mark of a word. -/
def Separator.ofKeyword? (word : String) : Option Separator :=
  if word = "BEGIN" then some .opening else if word = "END" then some .closing else none

/-- What an attribute is compared with. -/
inductive Operand where
  /-- One value. -/
  | value (literal : Literal)
  /-- Several values. -/
  | values (literals : List Literal)
deriving DecidableEq

/-- The literals of an operand. -/
def Operand.literals : Operand → List Literal
  | .value literal => [literal]
  | .values literals => literals

/-- A comparison of an attribute with one or more literals. -/
structure Criteria where
  /-- The attribute, as a path that may select an element. -/
  path : String
  /-- How the attribute is compared. -/
  relationship : Relationship
  /-- What it is compared with. -/
  operand : Operand
  /-- Whether a search compares the exact form of the field. -/
  exactMatch : Bool := false
deriving DecidableEq

/-- One step of a rule list. -/
inductive Rule where
  /-- The mark at one end of a group. -/
  | separator (mark : Separator)
  /-- A connective between two items of a group. -/
  | logical (connective : Connective)
  /-- A comparison. -/
  | criteria (criteria : Criteria)
deriving DecidableEq

/-- Whether a list holds a comparison that ranks documents by relevance. -/
def requiresScoring (rules : List Rule) : Bool :=
  rules.any fun
    | .criteria criteria => criteria.relationship.isFullText
    | _ => false

end FilterRules
