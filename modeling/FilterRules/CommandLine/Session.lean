import FilterRules.CommandLine.Arguments
import FilterRules.CommandLine.Files
import FilterRules.CommandLine.Reference
import FilterRules.Compilation

/-!
# A run of the command

A run reads its input, then the settings, then the schema, and stops at the first fault. What it
writes and how it ends is a value; files and streams are behind a source of texts, so that a run
can be followed on texts at hand.
-/

namespace FilterRules.CommandLine

/-- Why a run fails. -/
inductive CommandError where
  /-- A specification does not compile. -/
  | compile (error : CompileError)
  /-- A text is not what it should be. -/
  | json (fault : Json.ReadFault)
  /-- A text cannot be read. -/
  | unreadable (cause : Unreadable)
  /-- There is no input. -/
  | noInput
deriving DecidableEq

/-- The wording for a text that is not what it should be. -/
def faultText : Json.ReadFault → String
  | .form => "the text is not one JSON value"
  | .content => "the value does not have the expected form"

/-- The wording for the cause of a failure, if there is one. -/
def CommandError.cause? : CommandError → Option String
  | .compile error => some error.message
  | .json fault => some (faultText fault)
  | .unreadable cause => some cause.message
  | .noInput => none

/-- The wording for a failure. -/
def CommandError.message : CommandError → String
  | .compile error => "Compile error: " ++ error.message
  | .json fault => "Invalid JSON: " ++ faultText fault
  | .unreadable cause => "IO error: " ++ cause.message
  | .noInput => "No input provided. Use --input or pipe JSON to stdin."

/-- What a compilation comes to. -/
inductive CompileResult where
  /-- All specifications are valid; their number. -/
  | valid (count : Nat)
  /-- The compiled queries. -/
  | output (value : Json)

/-- The compiled specifications as values. -/
def compiledValues (compiler : Compiler) (target : Target) (specs : List QuerySpec) :
    Except CompileError (List Json) :=
  match target with
  | .document => (compiler.compileDocuments specs).map (·.map DocumentSpec.toJson)
  | .search => (compiler.compileSearches specs).map (·.map SearchQuery.toJson)

/-- Compile or check the specifications of an input. One specification gives one value, and a list
of them gives a list. -/
def execute (compiler : Compiler) (input : Option String) (target : Target) (validateOnly : Bool) :
    Except CommandError CompileResult := do
  match input with
  | none => throw .noInput
  | some text =>
    let batch ← (QuerySpec.Batch.ofText text).mapError .json
    if validateOnly then
      let _ ← (batch.specs.mapM compiler.check).mapError .compile
      return .valid batch.specs.length
    else
      let values ← (compiledValues compiler target batch.specs).mapError .compile
      match batch.single, values with
      | true, [value] => return .output value
      | _, _ => return .output (.array values)

/-- Where a run takes its texts from. -/
structure Source (m : Type → Type) where
  /-- The text of a file, or why it cannot be read. -/
  file : String → m (Except Unreadable String)
  /-- The standard input, if there is one. -/
  standardInput : m (Except Unreadable (Option String))

/-- Take what nobody has read of the standard input, which is all of it or nothing. -/
def takeInput : StateM String String := modifyGet fun unread => (unread, "")

/-- Texts from files at hand and from the unread standard input. -/
def Files.source (files : Files) : Source (StateM String) where
  file path :=
    match files.read path with
    | .ok (.text content) => return .ok content
    | .ok .standardInput => return .ok (← takeInput)
    | .error cause => return .error cause
  standardInput := return .ok (some (← takeInput))

/-- How a run ends. -/
structure Outcome where
  /-- The exit code: 0 for success, 1 for a failure, 2 for wrong arguments. -/
  exit : UInt32
  /-- The standard output. -/
  output : String := ""
  /-- The standard error. -/
  error : String := ""
deriving DecidableEq

/-- The settings of a file or the default ones, with those given as arguments in their place. -/
def withArguments (settings : Settings) (options : CompileOptions) : Settings :=
  ⟨options.identityField.getD settings.identityField,
    options.keywordSuffix.getD settings.keywordSuffix⟩

/-- The text that a compilation writes. -/
def resultText (options : CompileOptions) : CompileResult → String
  | .valid count => toString count ++ " query spec(s) valid\n"
  | .output value => (if options.pretty then value.pretty else value.compact) ++ "\n"

section

variable {m : Type → Type} [Monad m]

/-- The input of a compilation. -/
def Source.input (source : Source m) (options : CompileOptions) :
    ExceptT CommandError m (Option String) :=
  match options.input with
  | some text => return some text
  | none => ExceptT.mk do
    let text ← source.standardInput
    return text.mapError .unreadable

/-- The text of a file. -/
def Source.text (source : Source m) (path : String) : ExceptT CommandError m String :=
  ExceptT.mk do
    let text ← source.file path
    return text.mapError .unreadable

/-- A part of the work that reads nothing. -/
def settled {α : Type} (result : Except CommandError α) : ExceptT CommandError m α :=
  ExceptT.mk (pure result)

/-- Carry out a compilation: the text it writes. -/
def compile (source : Source m) (options : CompileOptions) : ExceptT CommandError m String := do
  let input ← source.input options
  let settings ← match options.config with
    | none => pure {}
    | some path => do
      let text ← source.text path
      settled ((Settings.ofText text).mapError .json)
  let schemaText ← source.text options.schema
  let schema ← settled ((Schema.ofText schemaText).mapError .json)
  let compiler : Compiler := ⟨schema, withArguments settings options⟩
  let result ← settled (execute compiler input options.target options.validateOnly)
  return resultText options result

/-- The version of the command. -/
def versionText : String := "rules 0.2.0\n"

/-- How the command is used. -/
def usageText : String := "Usage: rules [OPTIONS] <compile|operators>\n"

/-- A run with the given arguments. -/
def run (source : Source m) (arguments : List String) : m Outcome := do
  match Command.ofArguments? arguments with
  | none => return { exit := 2, error := usageText }
  | some .version => return { exit := 0, output := versionText }
  | some .help => return { exit := 0, output := usageText }
  | some .operators => return { exit := 0, output := reference }
  | some (.compile options) =>
    match ← (compile source options).run with
    | .ok text => return { exit := 0, output := text }
    | .error error => return { exit := 1, error := error.message ++ "\n" }

end

end FilterRules.CommandLine
