import FilterRules.Dictionary
import FilterRules.Numeral.Binary64

/-!
# JSON values

A number keeps its kind: whole numbers of 64 bits, with a sign or without, are told from
floating-point numbers, and a floating-point number is finite. The members of an object form a
dictionary, so that two objects with the same members are the same value.
-/

namespace FilterRules

/-- A JSON number. -/
inductive JsonNumber where
  /-- A whole number of 64 bits, signed or unsigned. -/
  | whole (n : Int) (inRange : -0x8000000000000000 ≤ n ∧ n < 0x10000000000000000)
  /-- Any other number. -/
  | real (x : Binary64) (finite : x.isFinite = true)
deriving DecidableEq

/-- A whole number, if it fits into 64 bits. -/
def JsonNumber.whole? (n : Int) : Option JsonNumber :=
  if h : -0x8000000000000000 ≤ n ∧ n < 0x10000000000000000 then some (.whole n h) else none

/-- A floating-point number, if it is finite. -/
def JsonNumber.real? (x : Binary64) : Option JsonNumber :=
  if h : x.isFinite = true then some (.real x h) else none

/-- A JSON value. -/
inductive Json where
  /-- The value `null`. -/
  | null
  /-- A truth value. -/
  | bool (b : Bool)
  /-- A number. -/
  | number (n : JsonNumber)
  /-- A string. -/
  | text (s : String)
  /-- A list of values. -/
  | array (items : List Json)
  /-- Values under keys, as a dictionary. -/
  | object (members : List (String × Json))

namespace Json

/-- The object of a list of writes; the last write under a key wins. -/
def ofWrites (writes : List (String × Json)) : Json := .object (Dictionary.ofWrites writes)

/-- An integer of 64 bits. -/
def ofInt64 (n : Int64) : Json :=
  .number (.whole n.toInt ⟨Int64.le_toInt n, Int.lt_trans (Int64.toInt_lt n) (by decide)⟩)

/-- A floating-point number; one that is not finite has no JSON form and becomes `null`. -/
def ofBinary64 (x : Binary64) : Json :=
  match JsonNumber.real? x with
  | some n => .number n
  | none => .null

/-- The value under a key of an object. -/
def member? (key : String) : Json → Option Json
  | .object members => Dictionary.find? key members
  | _ => none

end Json

end FilterRules
