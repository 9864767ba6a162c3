import FilterRules.Attribute
import FilterRules.Fault
import FilterRules.Numeral.Reading
import FilterRules.Schema.Basic
import FilterRules.Settings
import FilterRules.Text.Basic

/-!
# Literals of the declared type

Every literal is converted to the type that the schema declares for its attribute. Numbers, truth
values and dates may be written as texts; for an attribute of texts every literal becomes one. A
literal that has the type already stays as it is, so that converting twice changes nothing.
-/

namespace FilterRules

namespace Literal

/-- The number that a literal is or writes. Blanks around the text mean nothing. -/
def number? : Literal → Option Literal
  | .integer n => some (.integer n)
  | .real x => some (.real x)
  | .text s =>
    match Numeral.number? (Text.trim s.toList) with
    | some (.integer n) => some (.integer n)
    | some (.real x) => some (.real x)
    | none => none
  | _ => none

/-- A text with its ASCII letters in lower case. -/
def lowered (s : String) : String := String.ofList (s.toList.map Char.toLower)

/-- The truth value that a literal is or writes, in any case of letters. -/
def boolean? : Literal → Option Literal
  | .boolean b => some (.boolean b)
  | .text s =>
    if lowered s = "true" then some (.boolean true)
    else if lowered s = "false" then some (.boolean false)
    else none
  | _ => none

/-- The date that a literal is or writes. -/
def date? : Literal → Option Literal
  | .date d => some (.date d)
  | .text s => (Instant.ofIso? s).map .date
  | _ => none

/-- The literal as a value of the declared type. -/
def convert (literal : Literal) (declared : AttributeType) : Except ExpectedType Literal :=
  match declared.kind with
  | .number => literal.number?.elim (.error .number) .ok
  | .boolean => literal.boolean?.elim (.error .boolean) .ok
  | .string =>
    if declared.isDate then literal.date?.elim (.error .date) .ok
    else .ok (.text literal.asText)
  | .object | .unknown => .error .unsupported

end Literal

namespace AttributePath

/-- The path of the key that a selection compares. -/
def keyPath? : AttributePath → Option String
  | .plain _ => none
  | .filtered array key _ _ => some (Dotted.ofSegments array ++ "." ++ key)

/-- The literal that a selection compares its key with: a value of the key's declared type, or a
text when the schema does not know the key. -/
def filterLiteral (path : AttributePath) (schema : Schema) :
    Except ExpectedType (Option Literal) :=
  match path with
  | .plain _ => .ok none
  | .filtered array key value _ =>
    match schema.lookup (Dotted.ofSegments array ++ "." ++ key) with
    | none => .ok (some (.text value))
    | some declared => ((Literal.text value).convert declared).map some

/-- The path of an attribute; `rule` is the place of the rule that names it. -/
def parseAt (text : String) (rule : Option Nat) : Except CompileError AttributePath :=
  match parse? text with
  | some path => .ok path
  | none => .error (.structural (.invalidPath text) rule)

end AttributePath

/-- The declared type of an attribute, without its selection. -/
def Schema.resolve (schema : Schema) (text : String) (rule : Nat) :
    Except CompileError AttributeType := do
  let path ← AttributePath.parseAt text (some rule)
  match schema.lookup path.schemaPath with
  | some declared => return declared
  | none => throw (.unknownAttribute path.schemaPath)

namespace Criteria

/-- Check that the value of a selection has the type of its key. -/
def checkFilter (criteria : Criteria) (rule : Nat) (schema : Schema) :
    Except CompileError Unit := do
  let path ← AttributePath.parseAt criteria.path (some rule)
  match path, path.filterLiteral schema with
  | .filtered array key value _, .error expected =>
    throw (.conversion expected (Dotted.ofSegments array ++ "." ++ key) (.text value) rule)
  | _, _ => return ()

/-- One literal of a criteria as a value of the declared type. -/
def convertLiteral (criteria : Criteria) (rule : Nat) (declared : AttributeType)
    (literal : Literal) : Except CompileError Literal :=
  match literal.convert declared with
  | .ok converted => .ok converted
  | .error expected => .error (.conversion expected criteria.path literal rule)

/-- Literals of a criteria as values of the declared type. -/
def convertLiterals (criteria : Criteria) (rule : Nat) (declared : AttributeType) :
    List Literal → Except CompileError (List Literal)
  | [] => .ok []
  | literal :: rest => do
    let converted ← criteria.convertLiteral rule declared literal
    let others ← convertLiterals criteria rule declared rest
    return converted :: others

/-- The operand of a criteria with literals of the declared type. -/
def convertOperand (criteria : Criteria) (rule : Nat) (declared : AttributeType) :
    Except CompileError Operand :=
  match criteria.operand with
  | .value literal => (criteria.convertLiteral rule declared literal).map .value
  | .values literals => (criteria.convertLiterals rule declared literals).map .values

/-- Whether a search compares the exact form of a criteria's field: plain strings have one, the
identifying field has not, and a full-text comparison does not ask for it. -/
def wantsExact (criteria : Criteria) (declared : AttributeType) (settings : Settings) : Bool :=
  declared.isPlainString && !criteria.relationship.isFullText &&
    criteria.path != settings.identityField

/-- A criteria with literals of the declared type. For a search it is marked when the exact form of
the field is compared. -/
def convert (criteria : Criteria) (rule : Nat) (schema : Schema) (settings : Settings)
    (forSearch : Bool) : Except CompileError Criteria := do
  let declared ← schema.resolve criteria.path rule
  criteria.checkFilter rule schema
  let operand ← criteria.convertOperand rule declared
  let exactMatch := forSearch && criteria.wantsExact declared settings
  return { criteria with operand, exactMatch }

end Criteria

/-- The rules of a list, whose first rule has the place `index`, with converted literals. -/
def convertFrom (index : Nat) (schema : Schema) (settings : Settings) (forSearch : Bool) :
    List Rule → Except CompileError (List Rule)
  | [] => .ok []
  | .criteria criteria :: rest => do
    let converted ← criteria.convert index schema settings forSearch
    let others ← convertFrom (index + 1) schema settings forSearch rest
    return .criteria converted :: others
  | rule :: rest => do
    let others ← convertFrom (index + 1) schema settings forSearch rest
    return rule :: others

/-- A rule list with converted literals. -/
def convertRules (rules : List Rule) (schema : Schema) (settings : Settings) (forSearch : Bool) :
    Except CompileError (List Rule) :=
  convertFrom 0 schema settings forSearch rules

end FilterRules
