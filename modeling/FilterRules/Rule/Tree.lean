import FilterRules.Fault

/-!
# Rule trees

The tree of a rule list has a node for each group, with the group's connective and its items in
order. It is built in one pass over the list. The groups met so far form a forest in which a
connective may still be missing, and a cursor leads to the group that is open: the index of a root,
and then the index of a child at each level.
-/

namespace FilterRules

/-- A rule list as a tree. -/
inductive Tree where
  /-- A comparison. -/
  | leaf (criteria : Criteria)
  /-- A group. -/
  | group (connective : Connective) (children : List Tree)

/-- A tree under construction. -/
inductive Pending where
  /-- A comparison. -/
  | leaf (criteria : Criteria)
  /-- A group whose connective may not be known yet. -/
  | group (connective : Option Connective) (children : List Pending)

namespace Pending

/-- The group at a path of child indices below a list of nodes; the empty path leads to none. -/
def groupAt? : List Nat → List Pending → Option (Option Connective × List Pending)
  | [], _ => none
  | index :: path, nodes =>
    match nodes[index]? with
    | some (.group connective children) =>
      if path.isEmpty then some (connective, children) else groupAt? path children
    | _ => none

/-- Change the group at a path of child indices below a list of nodes. -/
def updateAt (change : Option Connective → List Pending → Pending) :
    List Nat → List Pending → List Pending
  | [], nodes => nodes
  | index :: path, nodes =>
    nodes.modify index fun
      | .group connective children =>
        if path.isEmpty then change connective children
        else .group connective (updateAt change path children)
      | .leaf criteria => .leaf criteria

mutual

/-- The tree of a finished node; a group without a connective holds when all its items do. -/
def finish : Pending → Tree
  | .leaf criteria => .leaf criteria
  | .group connective children => .group (connective.getD .and) (finishAll children)

/-- The trees of finished nodes. -/
def finishAll : List Pending → List Tree
  | [] => []
  | node :: nodes => finish node :: finishAll nodes

end

end Pending

/-- The trees of the rules read so far. -/
structure Builder where
  /-- The groups that stand in no other group. -/
  forest : List Pending := []
  /-- The way to the open group, empty outside all groups. -/
  cursor : List Nat := []

namespace Builder

/-- The open group. -/
def current? (builder : Builder) : Option (Option Connective × List Pending) :=
  Pending.groupAt? builder.cursor builder.forest

/-- Change the open group. -/
def change (builder : Builder) (change : Option Connective → List Pending → Pending) : Builder :=
  { builder with forest := Pending.updateAt change builder.cursor builder.forest }

/-- Open a group, inside the open one or as a further root. -/
def openGroup (builder : Builder) : Builder :=
  match builder.current? with
  | none => ⟨builder.forest ++ [.group none []], [builder.forest.length]⟩
  | some (_, children) =>
    let grown := builder.change fun connective items => .group connective (items ++ [.group none []])
    { grown with cursor := builder.cursor ++ [children.length] }

/-- Close the open group. A connective needs two items to join; without one all items must hold. -/
def closeGroup (builder : Builder) (index : Nat) : Except CompileError Builder :=
  match builder.current? with
  | none => .error (.structural .unbalancedSeparators index)
  | some (connective, children) =>
    if connective.isSome && children.length < 2 then .error (.emission .minimumCriteria)
    else
      let closed := builder.change fun connective items =>
        .group (some (connective.getD .and)) items
      .ok { closed with cursor := builder.cursor.dropLast }

/-- Set the connective of the open group, which can have only one. -/
def join (builder : Builder) (connective : Connective) (index : Nat) :
    Except CompileError Builder :=
  match builder.current? with
  | none => .error (.structural .improperOrder index)
  | some (some other, _) =>
    if other = connective then .ok builder else .error (.structural .mixedConnectives index)
  | some (none, _) => .ok (builder.change fun _ items => .group (some connective) items)

/-- Add a comparison to the open group. -/
def push (builder : Builder) (criteria : Criteria) (index : Nat) : Except CompileError Builder :=
  match builder.current? with
  | none => .error (.structural .improperOrder index)
  | some _ => .ok (builder.change fun connective items =>
      .group connective (items ++ [.leaf criteria]))

/-- The trees after one more rule, which has the place `index`. -/
def step (builder : Builder) (index : Nat) : Rule → Except CompileError Builder
  | .separator .opening => .ok builder.openGroup
  | .separator .closing => builder.closeGroup index
  | .logical connective => builder.join connective index
  | .criteria criteria => builder.push criteria index

/-- Go through the rules from the place `index` on. -/
def run (builder : Builder) (index : Nat) : List Rule → Except CompileError Builder
  | [] => .ok builder
  | rule :: rest =>
    match builder.step index rule with
    | .ok next => next.run (index + 1) rest
    | .error error => .error error

/-- The single root, once all groups are closed. -/
def root (builder : Builder) : Except CompileError Tree :=
  if !builder.cursor.isEmpty then .error (.structural .unbalancedSeparators none)
  else
    match builder.forest with
    | [] => .error (.structural .unbalancedSeparators none)
    | [root] => .ok root.finish
    | _ => .error (.structural .multipleRoots none)

end Builder

/-- The tree of a rule list. -/
def Tree.ofRules (rules : List Rule) : Except CompileError Tree := do
  let builder ← Builder.run {} 0 rules
  builder.root

end FilterRules
