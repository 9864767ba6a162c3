import FilterRules.Rule.Wire

/-!
# Query specifications

A specification asks for products of one type by a list of rules, or by several named groups of
rules, each of which has to hold. Groups are flattened into one rule list before anything else:
each becomes a group of the list, and all of them are joined in a group around them.
-/

namespace FilterRules

/-- A named group of rules. -/
structure RuleGroup where
  /-- The name of the group. -/
  name : String
  /-- The field `type`, which must be `RuleGroup.groupKind`. -/
  kind : String
  /-- The rules, without marks around them. -/
  rules : List WireRule

/-- The type of a group. -/
def RuleGroup.groupKind : String := "group"

/-- The group with the given name and rules. -/
def RuleGroup.ofRules (name : String) (rules : List WireRule) : RuleGroup :=
  ⟨name, groupKind, rules⟩

/-- An entry of a specification. -/
inductive RuleEntry where
  /-- A named group. -/
  | group (named : RuleGroup)
  /-- A rule. -/
  | rule (single : WireRule)

/-- A specification. -/
structure QuerySpec where
  /-- The type of the products. -/
  productType : String
  /-- The rules or groups. -/
  entries : List RuleEntry
  /-- The fields to return, passed on as they are. -/
  projection : Option (List String) := none

namespace QuerySpec

/-- The specification with the given rules. -/
def ofRules (productType : String) (rules : List WireRule) : QuerySpec :=
  { productType, entries := rules.map .rule }

/-- The specification with the given groups. -/
def ofGroups (productType : String) (groups : List RuleGroup) : QuerySpec :=
  { productType, entries := groups.map .group }

end QuerySpec

namespace RuleEntry

/-- The groups among some entries. -/
def groups : List RuleEntry → List RuleGroup
  | [] => []
  | .group named :: entries => named :: groups entries
  | .rule _ :: entries => groups entries

/-- The rules among some entries. -/
def rules : List RuleEntry → List WireRule
  | [] => []
  | .group _ :: entries => rules entries
  | .rule single :: entries => single :: rules entries

/-- The rules of a group between two marks. -/
def enclosed (rules : List WireRule) : List WireRule :=
  .separator .opening :: rules ++ [.separator .closing]

/-- The enclosed rules of groups, each with what stands between it and the group before it. -/
def joined (between : List WireRule) : List RuleGroup → Except CompileError (List WireRule)
  | [] => .ok []
  | named :: rest =>
    if named.kind = RuleGroup.groupKind then do
      let others ← joined [.logical .and] rest
      return between ++ enclosed named.rules ++ others
    else .error (.structural (.invalidGroup named.name) none)

/-- The entries as one rule list. Groups and rules cannot stand side by side. -/
def flatten (entries : List RuleEntry) : Except CompileError (List WireRule) :=
  if (groups entries).isEmpty then .ok (rules entries)
  else if (rules entries).isEmpty then (joined [] (groups entries)).map enclosed
  else .error (.structural .mixedGroups none)

end RuleEntry

end FilterRules
