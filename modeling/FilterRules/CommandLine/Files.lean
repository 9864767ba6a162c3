import FilterRules.Text.Basic

/-!
# Files at hand

Files in a tree of folders, which a run can read with no system under it. A file has a place: the
names that lead to it from the root. Folders have no entry of their own; what lies above a file is
a folder. A path is followed name by name, and every name asks for a folder to look in, an empty
name and a dot included: a path that goes on behind a file leads nowhere, even if all that follows
is a slash.
-/

namespace FilterRules.CommandLine

/-- Why a text cannot be read. -/
inductive Unreadable where
  /-- Nothing is there. -/
  | missing
  /-- Reading is not allowed. -/
  | forbidden
  /-- The path goes on behind a file. -/
  | notFolder
  /-- The path leads to a folder. -/
  | folder
  /-- The path is too long, or a name in it. -/
  | nameTooLong
  /-- What is there is not a text. -/
  | notText
  /-- Another reason, in words. -/
  | other (reason : String)
deriving DecidableEq

/-- The wording for a text that cannot be read, with the number that the reason commonly has. -/
def Unreadable.message : Unreadable → String
  | .missing => "No such file or directory (os error 2)"
  | .forbidden => "Permission denied (os error 13)"
  | .notFolder => "Not a directory (os error 20)"
  | .folder => "Is a directory (os error 21)"
  | .nameTooLong => "File name too long (os error 36)"
  | .notText => "stream did not contain valid UTF-8"
  | .other reason => reason

/-- The names that lead from the root to a file or a folder, outermost first. -/
abbrev Place := List String

/-- The place that a name leads to from another place: an empty name and a dot stay there, two dots
go up, and the root is above itself. -/
def Place.enter (place : Place) (name : String) : Place :=
  if name = "" ∨ name = "." then place
  else if name = ".." then place.dropLast
  else place ++ [name]

/-- The names in a path. -/
def pathNames (path : String) : List String := (Pieces.split '/' path.toList).map String.ofList

/-- What a file gives to its reader. -/
inductive Content where
  /-- The same text each time. -/
  | text (content : String)
  /-- The standard input, as far as nobody has read it. -/
  | standardInput
deriving DecidableEq

/-- Files with their places. -/
structure Files where
  /-- The files. -/
  entries : List (Place × Content)
  /-- The folder where a path starts that does not start at the root. -/
  folder : Place

/-- The files that every run finds: an empty one, and the standard input. -/
def devices : List (Place × Content) :=
  [(["dev", "null"], .text ""), (["dev", "stdin"], .standardInput)]

/-- Files of the given paths in a folder, beside the devices. -/
def Files.inFolder (folder : Place) (files : List (String × String)) : Files where
  entries := files.map (fun file => ((pathNames file.1).foldl Place.enter folder, .text file.2)) ++
    devices
  folder

namespace Files

/-- The file at a place, if there is one. -/
def find? (files : Files) (place : Place) : Option Content :=
  (files.entries.find? (·.1 = place)).map (·.2)

/-- Whether a place is a folder: the folder where paths start, or above it, or above a file. -/
def isFolder (files : Files) (place : Place) : Bool :=
  place.isPrefixOf files.folder || files.entries.any (place.isPrefixOf ·.1.dropLast)

/-- Follow one name of a path. -/
def step (files : Files) (place : Place) (name : String) : Except Unreadable Place :=
  if files.isFolder place then
    if 255 < name.utf8ByteSize then .error .nameTooLong
    else if files.isFolder (place.enter name) || (files.find? (place.enter name)).isSome then
      .ok (place.enter name)
    else .error .missing
  else .error .notFolder

/-- The file or folder that a path leads to. A path has less than 4096 bytes and is not empty. -/
def follow (files : Files) (path : String) : Except Unreadable Place :=
  if path = "" then .error .missing
  else if 4096 ≤ path.utf8ByteSize then .error .nameTooLong
  else (pathNames path).foldlM files.step (if path.startsWith "/" then [] else files.folder)

/-- What is in the file that a path leads to. -/
def read (files : Files) (path : String) : Except Unreadable Content := do
  match files.find? (← files.follow path) with
  | some content => return content
  | none => throw .folder

end Files

end FilterRules.CommandLine
