import FilterRules.CommandLine.Session

/-!
# The command

Carries out a run on files and standard streams.
-/

open FilterRules

/-- Whether an error has the given number. The system also gives numbers with the opposite sign. -/
def hasNumber (found number : UInt32) : Bool := found == number || found == 0 - number

/-- Why a file or stream cannot be read. -/
def unreadable : IO.Error → CommandLine.Unreadable
  | .noFileOrDirectory .. => .missing
  | .permissionDenied .. => .forbidden
  | .inappropriateType _ number _ => if hasNumber number 21 then .folder else .notFolder
  | .invalidArgument _ number reason =>
    if hasNumber number 36 then .nameTooLong else .other reason
  | other => .other (toString other)

/-- The text in bytes. -/
def textOfBytes (bytes : ByteArray) : Except CommandLine.Unreadable String :=
  match String.fromUTF8? bytes with
  | some text => .ok text
  | none => .error .notText

/-- Texts from files and from the standard input. -/
def systemSource : CommandLine.Source IO where
  file path := do
    try
      return textOfBytes (← IO.FS.readBinFile path)
    catch error => return .error (unreadable error)
  standardInput := do
    try
      let stream ← IO.getStdin
      if ← stream.isTty then return .ok none
      return (textOfBytes (← stream.readBinToEnd)).map some
    catch error => return .error (unreadable error)

/-- The entry point of the command. -/
def main (arguments : List String) : IO UInt32 := do
  let outcome ← CommandLine.run systemSource arguments
  IO.print outcome.output
  IO.eprint outcome.error
  return outcome.exit
