import FilterRules.Text.Basic

/-!
# Dotted paths

A dotted path names a field by the segments from the root of a document down to it. Segments are
compared whole and never by characters: `price` is no ancestor of `prices.currency`. Every text
is the path of exactly one list of segments, which may be empty texts themselves.
-/

namespace FilterRules.Dotted

/-- The segments of a path. -/
def segments (path : String) : List String := (Pieces.split '.' path.toList).map String.ofList

/-- The path of a list of segments. -/
def ofSegments (names : List String) : String :=
  String.ofList (Pieces.join '.' (names.map String.toList))

/-- A path is the path of its segments. -/
@[simp] theorem ofSegments_segments (path : String) : ofSegments (segments path) = path := by
  simp [ofSegments, segments, Function.comp_def]

/-- The proper, non-empty front parts of a list, shortest first. -/
def properFronts {α : Type} : List α → List (List α)
  | [] => []
  | [_] => []
  | head :: next :: rest => [head] :: (properFronts (next :: rest)).map (head :: ·)

/-- The paths above a path, outermost first. -/
def ancestors (path : String) : List String := (properFronts (segments path)).map ofSegments

/-- The path one segment up, if there is one. -/
def parent? (path : String) : Option String := (ancestors path).getLast?

/-- What follows `front` in a list that starts with it. -/
def after? {α : Type} [DecidableEq α] : List α → List α → Option (List α)
  | [], names => some names
  | _ :: _, [] => none
  | head :: front, name :: names => if head = name then after? front names else none

/-- Whether `path` lies strictly below `ancestor`. -/
def isBelow (path ancestor : String) : Bool :=
  match after? (segments ancestor) (segments path) with
  | some (_ :: _) => true
  | _ => false

/-- A path seen from a place above it; a path that does not lie below that place stays as it is. -/
def relativeTo (path ancestor : String) : String :=
  match after? (segments ancestor) (segments path) with
  | some (name :: names) => ofSegments (name :: names)
  | _ => path

/-- The longest common front part of two lists. -/
def sharedFront {α : Type} [DecidableEq α] : List α → List α → List α
  | left :: lefts, right :: rights => if left = right then left :: sharedFront lefts rights else []
  | _, _ => []

/-- The longest place above all paths of a list: the path of the segments they all start with.
There is none when they share no segment, and none when that path is one of the list, since a
path does not lie above itself. -/
def commonAncestor? : List String → Option String
  | [] => none
  | first :: rest =>
    match (rest.map segments).foldl sharedFront (segments first) with
    | [] => none
    | shared => if ofSegments shared ∈ first :: rest then none else some (ofSegments shared)

end FilterRules.Dotted
