import FilterRules.Schema.Reading

/-!
# Settings of a compilation

A search index keeps a plain string twice, analysed and as it is; a suffix on the field's name
addresses the second form. The field that identifies a document has no such second form.
-/

namespace FilterRules

open Json (Written ReadFault)

/-- The names that an index uses. -/
structure Settings where
  /-- The field that identifies a document; it never gets the suffix. -/
  identityField : String := "_id"
  /-- The suffix of the exact form of a plain string. -/
  keywordSuffix : String := ".keyword"
deriving DecidableEq

namespace Settings

/-- The settings that were read so far. -/
structure Fields where
  /-- The field `identity_field`. -/
  identityField : Option String := none
  /-- The field `keyword_suffix`. -/
  keywordSuffix : Option String := none

/-- The settings that some fields give; the others have their defaults. -/
def ofFields (fields : Fields) : Settings :=
  let defaults : Settings := {}
  ⟨fields.identityField.getD defaults.identityField,
    fields.keywordSuffix.getD defaults.keywordSuffix⟩

/-- Read the fields of an object. Unknown fields are passed over. -/
def Fields.read (fields : Fields) : List (Option String × Written) → Except ReadFault Fields
  | [] => .ok fields
  | (none, _) :: _ => .error .form
  | (some key, value) :: rest =>
    if key = "identity_field" then do
      if fields.identityField.isSome then throw .content
      let identityField ← value.string
      read { fields with identityField := some identityField } rest
    else if key = "keyword_suffix" then do
      if fields.keywordSuffix.isSome then throw .content
      let keywordSuffix ← value.string
      read { fields with keywordSuffix := some keywordSuffix } rest
    else read fields rest

/-- Read the values of a list in the order of the fields. -/
def ofItems (items : List Written) (closed : Bool) : Except ReadFault Settings :=
  match items with
  | [] => Written.finish closed {}
  | identityField :: rest => do
    let identityField ← identityField.string
    match rest with
    | [] => Written.finish closed { identityField }
    | keywordSuffix :: rest =>
      let keywordSuffix ← keywordSuffix.string
      Written.finish (closed && rest.isEmpty) { identityField, keywordSuffix }

/-- Read settings: an object with the fields, or a list of their values. -/
def ofWritten : Written → Except ReadFault Settings
  | .object members closed => do
    let fields ← Fields.read {} members
    Written.finish closed (ofFields fields)
  | .array items closed => ofItems items closed
  | other => .error other.mismatch

/-- Read settings from a value. -/
def ofJson? (value : Json) : Option Settings := (ofWritten (Written.ofValue value)).toOption

/-- Read settings from a text that holds nothing else. -/
def ofText (text : String) : Except ReadFault Settings := do
  let (written, complete) := Written.ofText text
  let settings ← ofWritten written
  Written.finish complete settings

end Settings

end FilterRules
