/-!
# Arguments of the command

The command compiles specifications, shows the operator reference or tells its version. An option
has a long name, and some have a letter too; letters can be run together behind one dash. A value
follows its option as the next argument, behind an equals sign, or right behind the letter, and the
next argument counts as one unless it looks like an option. No option may be given twice.
-/

namespace FilterRules.CommandLine

/-- Which kind of queries to compile. -/
inductive Target where
  /-- Queries of a document store. -/
  | document
  /-- Queries of a search engine. -/
  | search
deriving DecidableEq

/-- The target of a word. -/
def Target.ofWord? (word : String) : Option Target :=
  if word = "document" then some .document else if word = "search" then some .search else none

/-- An option that takes a value. -/
inductive Setting where
  /-- The file with the schema. -/
  | schema
  /-- The target. -/
  | target
  /-- The specifications themselves. -/
  | input
  /-- The file with the settings. -/
  | config
  /-- The field that identifies a document. -/
  | identityField
  /-- The suffix of the exact form of a field. -/
  | keywordSuffix
deriving DecidableEq

/-- Whether an option can have a value: a target is one of two words, and all else is free. -/
def Setting.admits (setting : Setting) (value : String) : Bool :=
  match setting with
  | .target => (Target.ofWord? value).isSome
  | _ => true

/-- An option without a value. -/
inductive Flag where
  /-- Report the stages of the work. -/
  | verbose
  /-- Indent the output. -/
  | pretty
  /-- Check the specifications and compile nothing. -/
  | validateOnly
deriving DecidableEq

/-- What the options of a compilation say. -/
structure CompileOptions where
  /-- The file with the schema. -/
  schema : String
  /-- The kind of queries. -/
  target : Target
  /-- The specifications, if they are given as an argument. -/
  input : Option String
  /-- Whether to indent the output. -/
  pretty : Bool
  /-- Whether to check only. -/
  validateOnly : Bool
  /-- The file with the settings. -/
  config : Option String
  /-- The identifying field, in place of the one in the settings. -/
  identityField : Option String
  /-- The suffix, in place of the one in the settings. -/
  keywordSuffix : Option String
deriving DecidableEq

/-- What the command is asked to do. -/
inductive Command where
  /-- Compile specifications. -/
  | compile (options : CompileOptions)
  /-- Show the operator reference. -/
  | operators
  /-- Tell the version. -/
  | version
  /-- Show how the command is used. -/
  | help
deriving DecidableEq

/-- The options that were read so far. -/
structure Given where
  /-- The options with values. -/
  values : List (Setting × String) := []
  /-- The options without values. -/
  flags : List Flag := []

namespace Given

/-- Add an option with its value, unless it was given before or cannot have that value. -/
def set? (given : Given) (setting : Setting) (value : String) : Option Given :=
  if given.values.any fun entry => entry.1 == setting then none
  else if setting.admits value then some { given with values := (setting, value) :: given.values }
  else none

/-- Add an option without a value, unless it was given before. -/
def raise? (given : Given) (flag : Flag) : Option Given :=
  if flag ∈ given.flags then none else some { given with flags := flag :: given.flags }

/-- The value of an option. -/
def value? (given : Given) (setting : Setting) : Option String :=
  (given.values.find? fun entry => entry.1 == setting).map (·.2)

end Given

/-- The options that a part of the command line knows. -/
structure Vocabulary where
  /-- The option with a value of a long name. -/
  setting? : String → Option Setting
  /-- The option without a value of a long name. -/
  flag? : String → Option Flag
  /-- The long name of a letter. -/
  long? : Char → Option String
  /-- Whether the version can be asked for. -/
  knowsVersion : Bool

/-- In front of the name of a task. -/
def Vocabulary.general : Vocabulary where
  setting? _ := none
  flag? name := if name = "verbose" then some .verbose else none
  long? letter :=
    match letter with
    | 'v' => some "verbose"
    | 'V' => some "version"
    | 'h' => some "help"
    | _ => none
  knowsVersion := true

/-- Behind the name of the task that shows the reference. -/
def Vocabulary.operators : Vocabulary :=
  { Vocabulary.general with knowsVersion := false }

/-- Behind the name of the task that compiles. -/
def Vocabulary.compile : Vocabulary where
  setting? name :=
    match name with
    | "schema" => some .schema
    | "target" => some .target
    | "input" => some .input
    | "config" => some .config
    | "identity-field" => some .identityField
    | "keyword-suffix" => some .keywordSuffix
    | _ => none
  flag? name :=
    match name with
    | "verbose" => some .verbose
    | "pretty" => some .pretty
    | "validate-only" => some .validateOnly
    | _ => none
  long? letter :=
    match letter with
    | 's' => some "schema"
    | 't' => some "target"
    | 'i' => some "input"
    | 'p' => some "pretty"
    | 'v' => some "verbose"
    | 'h' => some "help"
    | _ => none
  knowsVersion := false

/-- What one argument says. -/
inductive Reading where
  /-- Options, all of them complete. -/
  | complete (given : Given)
  /-- Options, of which the last waits for its value in the next argument. -/
  | waiting (given : Given) (setting : Setting)
  /-- A question that ends the reading. -/
  | question (command : Command)
  /-- The end of the options. -/
  | ending
  /-- No option. -/
  | word (text : String)

/-- The question of a long name. -/
def question? (vocabulary : Vocabulary) (name : String) : Option Command :=
  if name = "help" then some .help
  else if name = "version" ∧ vocabulary.knowsVersion then some .version
  else none

/-- An option by its long name, with a value if one is attached. -/
def readLong (vocabulary : Vocabulary) (given : Given) (name : String) (attached : Option String) :
    Option Reading :=
  match vocabulary.setting? name, vocabulary.flag? name, question? vocabulary name, attached with
  | some setting, _, _, some value => (given.set? setting value).map .complete
  | some setting, _, _, none => some (.waiting given setting)
  | none, some flag, _, none => (given.raise? flag).map .complete
  | none, none, some command, none => some (.question command)
  | _, _, _, _ => none

/-- Options by their letters. What stands behind the letter of an option with a value is the
value. -/
def readLetters (vocabulary : Vocabulary) (given : Given) : List Char → Option Reading
  | [] => some (.complete given)
  | letter :: rest => do
    let name ← vocabulary.long? letter
    match vocabulary.setting? name with
    | some setting =>
      match rest with
      | [] => some (.waiting given setting)
      | '=' :: value => (given.set? setting (String.ofList value)).map .complete
      | value => (given.set? setting (String.ofList value)).map .complete
    | none =>
      match ← readLong vocabulary given name none with
      | .complete next => readLetters vocabulary next rest
      | reading => some reading

/-- One argument. -/
def readArgument (vocabulary : Vocabulary) (given : Given) (argument : String) : Option Reading :=
  match argument.toList with
  | ['-', '-'] => some .ending
  | '-' :: '-' :: name =>
    let attached := match name.dropWhile (· != '=') with
      | _ :: value => some (String.ofList value)
      | [] => none
    readLong vocabulary given (String.ofList (name.takeWhile (· != '='))) attached
  | '-' :: letter :: letters => readLetters vocabulary given (letter :: letters)
  | _ => some (.word argument)

/-- Whether an argument can be the value of the option before it: it does not start with a dash,
or is nothing else. -/
def isValue (argument : String) : Bool :=
  match argument.toList with
  | '-' :: _ :: _ => false
  | _ => true

/-- The options behind the name of a task, where nothing else may stand. The result is a question,
if one was asked before the first fault. -/
def readOptions (vocabulary : Vocabulary) (given : Given) :
    List String → Option (Given ⊕ Command)
  | [] => some (.inl given)
  | argument :: rest => do
    match ← readArgument vocabulary given argument with
    | .complete next => readOptions vocabulary next rest
    | .waiting next setting =>
      match rest with
      | value :: rest =>
        if isValue value then
          let next ← next.set? setting value
          readOptions vocabulary next rest
        else none
      | [] => none
    | .question command => some (.inr command)
    | .ending => if rest.isEmpty then some (.inl given) else none
    | .word _ => none

/-- The compilation that some options describe; it needs a schema. -/
def compilation? (given : Given) : Option Command := do
  let schema ← given.value? .schema
  let target ← match given.value? .target with
    | some word => Target.ofWord? word
    | none => some .document
  some <| .compile
    { schema
      target
      input := given.value? .input
      pretty := given.flags.contains .pretty
      validateOnly := given.flags.contains .validateOnly
      config := given.value? .config
      identityField := given.value? .identityField
      keywordSuffix := given.value? .keywordSuffix }

/-- The task behind its name. -/
def task? (name : String) (arguments : List String) : Option Command := do
  if name = "compile" then
    match ← readOptions .compile {} arguments with
    | .inl given => compilation? given
    | .inr command => some command
  else if name = "operators" then
    match ← readOptions .operators {} arguments with
    | .inl _ => some .operators
    | .inr command => some command
  else if name = "help" then
    match arguments with
    | [] | ["compile"] | ["operators"] | ["help"] => some .help
    | _ => none
  else none

/-- What the arguments from the options in front on ask for. -/
def readCommand (given : Given) : List String → Option Command
  | [] => none
  | argument :: rest => do
    match ← readArgument .general given argument with
    | .complete next => readCommand next rest
    | .waiting _ _ => none
    | .question command => some command
    | .ending => none
    | .word name => task? name rest

/-- What the arguments ask for; nothing when they are not a use of the command. -/
def Command.ofArguments? (arguments : List String) : Option Command := readCommand {} arguments

end FilterRules.CommandLine
