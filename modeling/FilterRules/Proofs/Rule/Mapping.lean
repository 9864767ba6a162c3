import FilterRules.Proofs.Rule.Item
import FilterRules.Proofs.Rule.Scaffold

/-!
# Trees with other comparisons

Building a tree does not look into a comparison: a list with other comparisons has the tree of the list
with those comparisons, or the same fault. This is shown for one step on a stack of open groups, and
from there for a run over a list.
-/

namespace FilterRules

mutual

/-- A tree with other comparisons. -/
def Tree.map (change : Criteria → Criteria) : Tree → Tree
  | .leaf criteria => .leaf (change criteria)
  | .group connective children => .group connective (Tree.mapAll change children)

/-- Trees with other comparisons. -/
def Tree.mapAll (change : Criteria → Criteria) : List Tree → List Tree
  | [] => []
  | tree :: trees => tree.map change :: Tree.mapAll change trees

end

variable {change : Criteria → Criteria}

/-- Trees are changed one by one. -/
theorem Tree.mapAll_eq_map (trees : List Tree) :
    Tree.mapAll change trees = trees.map (Tree.map change) := by
  induction trees with
  | nil => rfl
  | cons tree trees ih => rw [Tree.mapAll, ih, List.map_cons]

/-- An open group with other comparisons. -/
def Frame.map (change : Criteria → Criteria) (frame : Frame) : Frame :=
  { frame with children := frame.children.map (Tree.map change) }

/-- A group with other comparisons is closed like the group. -/
theorem Frame.close_map (frame : Frame) :
    (frame.map change).close = frame.close.map (Tree.map change) := by
  simp only [Frame.close, Frame.map, List.length_map]
  split
  · rfl
  · simp [Except.map, Tree.map, Tree.mapAll_eq_map]

/-- A group with other comparisons takes the connectives that the group takes. -/
theorem Frame.join_map (frame : Frame) (connective : Connective) (index : Nat) :
    (frame.map change).join connective index =
      (frame.join connective index).map (Frame.map change) := by
  obtain ⟨found, children⟩ := frame
  cases found with
  | none => rfl
  | some other =>
    by_cases hsame : other = connective
    · simp [Frame.join, Frame.map, Except.map, hsame]
    · simp [Frame.join, Frame.map, Except.map, hsame]

namespace Scaffold

/-- Finished trees and open groups with other comparisons. -/
def map (change : Criteria → Criteria) (scaffold : Scaffold) : Scaffold :=
  ⟨scaffold.roots.map (Tree.map change), scaffold.frames.map (Frame.map change)⟩

/-- One more tree is one more tree with other comparisons. -/
theorem add_map (scaffold : Scaffold) (tree : Tree) :
    (scaffold.map change).add (tree.map change) = (scaffold.add tree).map change := by
  obtain ⟨roots, frames⟩ := scaffold
  cases frames <;> simp [add, map, Frame.add, Frame.map]

/-- A step does not look into a comparison. -/
theorem step_map (scaffold : Scaffold) (index : Nat) (rule : Rule) :
    (scaffold.map change).step index (rule.map change) =
      (scaffold.step index rule).map (Scaffold.map change) := by
  obtain ⟨roots, frames⟩ := scaffold
  match rule, frames with
  | .separator .opening, frames => rfl
  | .separator .closing, [] => rfl
  | .separator .closing, frame :: outer =>
    have hclose : (frame.map change).close = frame.close.map (Tree.map change) := frame.close_map
    simp only [step, map, Rule.map, List.map_cons, hclose]
    cases frame.close with
    | error error => rfl
    | ok tree => exact congrArg Except.ok (add_map ⟨roots, outer⟩ tree)
  | .logical connective, [] => rfl
  | .logical connective, frame :: outer =>
    have hjoin : (frame.map change).join connective index =
        (frame.join connective index).map (Frame.map change) := frame.join_map connective index
    simp only [step, map, Rule.map, List.map_cons, hjoin]
    cases frame.join connective index <;> rfl
  | .criteria criteria, [] => rfl
  | .criteria criteria, frame :: outer =>
    exact congrArg Except.ok (add_map ⟨roots, frame :: outer⟩ (.leaf criteria))

/-- A run does not look into comparisons. -/
theorem run_map (scaffold : Scaffold) (index : Nat) (rules : List Rule) :
    (scaffold.map change).run index (rules.map (Rule.map change)) =
      (scaffold.run index rules).map (Scaffold.map change) := by
  induction rules generalizing scaffold index with
  | nil => rfl
  | cons rule rules ih =>
    rw [List.map_cons, run, run, step_map]
    cases scaffold.step index rule with
    | error error => rfl
    | ok next => exact ih next (index + 1)

/-- The single tree has other comparisons. -/
theorem root_map (scaffold : Scaffold) :
    (scaffold.map change).root = scaffold.root.map (Tree.map change) := by
  obtain ⟨roots, frames⟩ := scaffold
  match frames, roots with
  | _ :: _, _ => rfl
  | [], [] => rfl
  | [], [_] => rfl
  | [], _ :: _ :: _ => rfl

end Scaffold

/-- The tree of a list with other comparisons is the tree of the list with those. -/
theorem Tree.ofRules_map (rules : List Rule) :
    Tree.ofRules (rules.map (Rule.map change)) = (Tree.ofRules rules).map (Tree.map change) := by
  have hrun : Scaffold.run {} 0 (rules.map (Rule.map change)) =
      (Scaffold.run {} 0 rules).map (Scaffold.map change) := Scaffold.run_map {} 0 rules
  rw [Tree.ofRules_eq_scaffold, Tree.ofRules_eq_scaffold, hrun]
  cases Scaffold.run {} 0 rules with
  | error error => rfl
  | ok scaffold => exact scaffold.root_map

end FilterRules
