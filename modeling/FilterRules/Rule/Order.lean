import FilterRules.Fault

/-!
# The order of rules

The order of a rule list is checked on a stack of markers, one for each mark, connective and item
of the groups that are still open. Closing a group takes its markers away and leaves the marker of
an item in the group around it.
-/

namespace FilterRules

/-- What was read inside an open group. -/
inductive Marker where
  /-- The mark that opened the group. -/
  | opening
  /-- A connective. -/
  | logical
  /-- A criteria or a group inside. -/
  | item
deriving DecidableEq

namespace Marker

/-- The stack below the innermost opening mark, if there is one. -/
def belowOpening? : List Marker → Option (List Marker)
  | [] => none
  | .opening :: below => some below
  | _ :: below => belowOpening? below

/-- Leave the innermost group; inside another group it counts as an item. -/
def close? (stack : List Marker) : Option (List Marker) :=
  match belowOpening? stack with
  | none => none
  | some [] => some []
  | some (marker :: below) => some (.item :: marker :: below)

/-- The stack after one more rule, if the rule may follow. A group may begin a list or a group or
follow a connective; a group may end after its opening mark or an item; a connective follows an
item or an opening mark; a criteria follows an opening mark or a connective. -/
def step (stack : List Marker) : Rule → Option (List Marker)
  | .separator .opening =>
    match stack with
    | .item :: _ => none
    | _ => some (.opening :: stack)
  | .separator .closing =>
    match stack with
    | .opening :: _ | .item :: _ => close? stack
    | _ => none
  | .logical _ =>
    match stack with
    | .item :: _ | .opening :: _ => some (.logical :: stack)
    | _ => none
  | .criteria _ =>
    match stack with
    | .opening :: _ | .logical :: _ => some (.item :: stack)
    | _ => none

/-- Go through the rules from the place `index` on. -/
def run (index : Nat) (stack : List Marker) : List Rule → Except CompileError (List Marker)
  | [] => .ok stack
  | rule :: rest =>
    match step stack rule with
    | some next => run (index + 1) next rest
    | none => .error (.structural .improperOrder index)

end Marker

/-- Check that the rules stand in order and that every group is closed at the end. -/
def checkOrder (rules : List Rule) : Except CompileError Unit :=
  match Marker.run 0 [] rules with
  | .error error => .error error
  | .ok [] => .ok ()
  | .ok (_ :: _) => .error (.structural .improperOrder none)

end FilterRules
