import FilterRules.Dictionary
import FilterRules.Text.Dotted

/-!
# Attribute schemas

A schema declares the type of each attribute under its dotted path. An attribute that the schema
does not know has no type. Lists of sub-documents are nested fields; what lies below one of them
belongs to the elements of the list.

Comparisons on fields below one list are meant for one and the same element of the list. The
grouping root of some paths is the closest place above all of them that holds a list.
-/

namespace FilterRules

/-- What the values of an attribute are. -/
inductive Kind where
  /-- Texts, or dates when the format says so. -/
  | string
  /-- Numbers. -/
  | number
  /-- Truth values. -/
  | boolean
  /-- Sub-documents. -/
  | object
  /-- Something that nothing can be compared with. -/
  | unknown
deriving DecidableEq

/-- The name of a kind. -/
def Kind.name : Kind → String
  | .string => "string"
  | .number => "number"
  | .boolean => "boolean"
  | .object => "object"
  | .unknown => "unknown"

/-- The kind of a name; every name that is not one of the four is of no known kind. -/
def Kind.ofName (name : String) : Kind :=
  if name = "string" then .string
  else if name = "number" then .number
  else if name = "boolean" then .boolean
  else if name = "object" then .object
  else .unknown

/-- The declared type of an attribute. -/
structure AttributeType where
  /-- What its values are. -/
  kind : Kind
  /-- An annotation on the form of the values. -/
  format : Option String := none
  /-- Whether the attribute holds a list of values. -/
  isArray : Bool := false
deriving DecidableEq

namespace AttributeType

/-- The format of strings that are dates. -/
def dateFormat : String := "date-time"

/-- A type that holds dates. -/
def isDate (declared : AttributeType) : Bool :=
  declared.kind == .string && declared.format == some dateFormat

/-- A type that holds texts which are not dates. -/
def isPlainString (declared : AttributeType) : Bool :=
  declared.kind == .string && !declared.isDate

/-- A list of sub-documents. -/
def isNested (declared : AttributeType) : Bool := declared.isArray && declared.kind == .object

/-- The type of texts. -/
def ofStrings : AttributeType := { kind := .string }

/-- The type of numbers. -/
def ofNumbers : AttributeType := { kind := .number }

/-- The type of truth values. -/
def ofBooleans : AttributeType := { kind := .boolean }

/-- The type of dates. -/
def ofDates : AttributeType := { kind := .string, format := some dateFormat }

/-- The type of lists of sub-documents. -/
def nested : AttributeType := { kind := .object, isArray := true }

/-- The type of lists of what a type holds. -/
def array (declared : AttributeType) : AttributeType := { declared with isArray := true }

end AttributeType

/-- The declared types of attributes. -/
structure Schema where
  /-- The types under their paths, as a dictionary. -/
  entries : List (String × AttributeType) := []
deriving DecidableEq

namespace Schema

/-- The schema without attributes. -/
def empty : Schema := {}

/-- Declare the type of an attribute, in place of the type that it had. -/
def insert (schema : Schema) (path : String) (declared : AttributeType) : Schema :=
  ⟨Dictionary.insert path declared schema.entries⟩

/-- The declared type of an attribute. -/
def lookup (schema : Schema) (path : String) : Option AttributeType :=
  Dictionary.find? path schema.entries

/-- The number of attributes. -/
def size (schema : Schema) : Nat := schema.entries.length

/-- The type of an attribute that was just declared. -/
@[simp] theorem lookup_insert_self (schema : Schema) (path : String) (declared : AttributeType) :
    (schema.insert path declared).lookup path = some declared := by
  simp [insert, lookup]

/-- A declaration leaves all other attributes alone. -/
theorem lookup_insert_of_ne (schema : Schema) {path asked : String} (h : asked ≠ path)
    (declared : AttributeType) :
    (schema.insert path declared).lookup asked = schema.lookup asked :=
  Dictionary.find?_insert_of_ne h declared schema.entries

/-- The nested fields above a path, outermost first. -/
def nestedAncestors (schema : Schema) (path : String) : List String :=
  (Dotted.ancestors path).filter fun ancestor => (schema.lookup ancestor).any (·.isNested)

end Schema

/-- What counts as a list. -/
inductive RootKind where
  /-- Any attribute that holds a list of values. -/
  | array
  /-- A list of sub-documents. -/
  | nested
deriving DecidableEq

/-- Whether an attribute of a type counts as a list. -/
def RootKind.accepts : RootKind → AttributeType → Bool
  | .array, declared => declared.isArray
  | .nested, declared => declared.isNested

/-- The closest place above all of at least two paths that counts as a list. -/
def Schema.groupingRoot? (schema : Schema) (kind : RootKind) (paths : List String) :
    Option String :=
  if paths.length < 2 then none
  else
    match Dotted.commonAncestor? paths with
    | none => none
    | some shared =>
      (shared :: (Dotted.ancestors shared).reverse).find? fun place =>
        (schema.lookup place).any kind.accepts

end FilterRules
