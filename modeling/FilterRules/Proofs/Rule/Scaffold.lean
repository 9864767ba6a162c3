import FilterRules.Proofs.Outcome
import FilterRules.Rule.Tree

/-!
# Trees under construction as a stack

The builder keeps a forest and a cursor into it. What it holds is a stack of open groups on top of
finished trees: the cursor leads through the last child of each open group, and everything beside
that way is finished. Each step of the builder is a step on the top of this stack, which no longer
mentions paths of indices.
-/

namespace FilterRules

mutual

/-- A finished tree as a node under construction. -/
def Tree.pending : Tree → Pending
  | .leaf criteria => .leaf criteria
  | .group connective children => .group (some connective) (Tree.pendings children)

/-- Finished trees as nodes under construction. -/
def Tree.pendings : List Tree → List Pending
  | [] => []
  | tree :: trees => tree.pending :: Tree.pendings trees

end

/-- The nodes of trees in two parts. -/
@[simp] theorem Tree.pendings_append (front back : List Tree) :
    Tree.pendings (front ++ back) = Tree.pendings front ++ Tree.pendings back := by
  induction front with
  | nil => rfl
  | cons tree front ih => simp [Tree.pendings, ih]

/-- There is one node for each tree. -/
@[simp] theorem Tree.pendings_length (trees : List Tree) :
    (Tree.pendings trees).length = trees.length := by
  induction trees with
  | nil => rfl
  | cons tree trees ih => simp [Tree.pendings, ih]

mutual

/-- Finishing a finished tree gives that tree. -/
theorem Tree.finish_pending : (tree : Tree) → tree.pending.finish = tree
  | .leaf criteria => rfl
  | .group connective children => by
    simp [Tree.pending, Pending.finish, Tree.finishAll_pendings children]

/-- Finishing finished trees gives those trees. -/
theorem Tree.finishAll_pendings : (trees : List Tree) →
    Pending.finishAll (Tree.pendings trees) = trees
  | [] => rfl
  | tree :: trees => by
    simp [Tree.pendings, Pending.finishAll, Tree.finish_pending tree,
      Tree.finishAll_pendings trees]

end

namespace Pending

/-- One index more leads from a group to one of its children. -/
theorem groupAt?_append {path : List Nat} {nodes children : List Pending}
    {connective : Option Connective} (h : groupAt? path nodes = some (connective, children))
    (index : Nat) : groupAt? (path ++ [index]) nodes = groupAt? [index] children := by
  induction path generalizing nodes with
  | nil => simp [groupAt?] at h
  | cons first path ih =>
    cases hnode : nodes[first]? with
    | none => simp [groupAt?, hnode] at h
    | some node =>
      cases node with
      | leaf criteria => simp [groupAt?, hnode] at h
      | group found items =>
        cases path with
        | nil =>
          simp only [groupAt?, hnode, List.isEmpty_nil, if_true, Option.some.injEq,
            Prod.mk.injEq] at h
          simp [groupAt?, hnode, h.2]
        | cons second path =>
          simp only [groupAt?, hnode, List.isEmpty_cons, Bool.false_eq_true, if_false] at h
          have hnext := ih h
          simpa [groupAt?, hnode] using hnext

/-- A change one index further down changes a child of the group at the path. -/
theorem updateAt_append (change : Option Connective → List Pending → Pending) {path : List Nat}
    (hpath : path ≠ []) (index : Nat) (nodes : List Pending) :
    updateAt change (path ++ [index]) nodes =
      updateAt (fun connective children => .group connective (updateAt change [index] children))
        path nodes := by
  induction path generalizing nodes with
  | nil => exact absurd rfl hpath
  | cons first path ih =>
    cases path with
    | nil => simp [updateAt]
    | cons second path =>
      simp only [List.cons_append, updateAt, List.isEmpty_cons, Bool.false_eq_true, if_false]
      congr 1
      funext node
      cases node with
      | leaf criteria => rfl
      | group connective children =>
        have hnext := ih (by simp) children
        simpa [updateAt] using hnext

/-- A change of the last of some nodes, when it is a group. -/
theorem updateAt_last (change : Option Connective → List Pending → Pending) (front : List Pending)
    (connective : Option Connective) (children : List Pending) :
    updateAt change [front.length] (front ++ [.group connective children]) =
      front ++ [change connective children] := by
  simp [updateAt, List.modify_eq_take_drop]

end Pending

/-- An open group: its connective if one was read, and its finished items. -/
structure Frame where
  /-- The connective. -/
  connective : Option Connective
  /-- The items. -/
  children : List Tree

namespace Frame

/-- The node of an open group that goes on with further nodes. -/
def node (frame : Frame) (inner : List Pending) : Pending :=
  .group frame.connective (Tree.pendings frame.children ++ inner)

/-- Nodes inside open groups, of which the innermost comes first. -/
def enclose (inner : List Pending) : List Frame → List Pending
  | [] => inner
  | frame :: outer => enclose [frame.node inner] outer

/-- The cursor to the first of some open groups, behind a number of finished roots. -/
def way (roots : Nat) : List Frame → List Nat
  | [] => []
  | [_] => [roots]
  | _ :: frame :: outer => way roots (frame :: outer) ++ [frame.children.length]

/-- The way to an open group is not empty. -/
theorem way_ne_nil (roots : Nat) (frame : Frame) (outer : List Frame) :
    way roots (frame :: outer) ≠ [] := by
  cases outer <;> simp [way]

/-- The way to a group without its last index is the way to the group around it. -/
theorem way_dropLast (roots : Nat) (frame : Frame) (outer : List Frame) :
    (way roots (frame :: outer)).dropLast = way roots outer := by
  cases outer <;> simp [way]

/-- The way does not depend on what stands in the innermost group. -/
theorem way_congr (roots : Nat) (frame other : Frame) (outer : List Frame) :
    way roots (frame :: outer) = way roots (other :: outer) := by
  cases outer <;> rfl

/-- The way to the innermost group leads there. -/
theorem groupAt?_way (roots inner : List Pending) (frame : Frame) (outer : List Frame) :
    Pending.groupAt? (way roots.length (frame :: outer)) (roots ++ enclose inner (frame :: outer)) =
      some (frame.connective, Tree.pendings frame.children ++ inner) := by
  induction outer generalizing frame inner with
  | nil => simp [way, enclose, node, Pending.groupAt?]
  | cons next outer ih =>
    have hnext := ih [frame.node inner] next
    rw [way, enclose, Pending.groupAt?_append hnext]
    simp [Pending.groupAt?, node]

/-- A change at the end of the way changes the innermost group. -/
theorem updateAt_way (change : Option Connective → List Pending → Pending)
    (roots inner : List Pending) (frame : Frame) (outer : List Frame) :
    Pending.updateAt change (way roots.length (frame :: outer))
        (roots ++ enclose inner (frame :: outer)) =
      roots ++ enclose [change frame.connective (Tree.pendings frame.children ++ inner)] outer := by
  induction outer generalizing frame inner change with
  | nil => exact Pending.updateAt_last change roots frame.connective _
  | cons next outer ih =>
    have hlast := Pending.updateAt_last change (Tree.pendings next.children) frame.connective
      (Tree.pendings frame.children ++ inner)
    rw [Tree.pendings_length] at hlast
    rw [way, enclose, Pending.updateAt_append change (way_ne_nil _ _ _), ih, node, hlast]
    rfl

end Frame

/-- An open group with one more finished item. -/
def Frame.add (frame : Frame) (tree : Tree) : Frame :=
  { frame with children := frame.children ++ [tree] }

/-- Finished trees, and the groups that are still open behind them. -/
structure Scaffold where
  /-- The finished trees that stand in no group. -/
  roots : List Tree := []
  /-- The open groups, the innermost first. -/
  frames : List Frame := []

namespace Scaffold

/-- The builder that holds a scaffold. -/
def builder (scaffold : Scaffold) : Builder :=
  ⟨Tree.pendings scaffold.roots ++ Frame.enclose [] scaffold.frames,
    Frame.way scaffold.roots.length scaffold.frames⟩

/-- A scaffold with one more finished tree, in the innermost open group or as a root. -/
def add (scaffold : Scaffold) (tree : Tree) : Scaffold :=
  match scaffold.frames with
  | [] => { scaffold with roots := scaffold.roots ++ [tree] }
  | frame :: outer => { scaffold with frames := frame.add tree :: outer }

/-- A scaffold with one more open group. -/
def openGroup (scaffold : Scaffold) : Scaffold :=
  { scaffold with frames := ⟨none, []⟩ :: scaffold.frames }

end Scaffold

/-- The tree of a group that is closed. A connective needs two items to join. -/
def Frame.close (frame : Frame) : Except CompileError Tree :=
  if frame.connective.isSome && frame.children.length < 2 then .error (.emission .minimumCriteria)
  else .ok (.group (frame.connective.getD .and) frame.children)

/-- A group with a connective read, at the place `index`. -/
def Frame.join (frame : Frame) (connective : Connective) (index : Nat) :
    Except CompileError Frame :=
  match frame.connective with
  | none => .ok { frame with connective := some connective }
  | some other =>
    if other = connective then .ok frame else .error (.structural .mixedConnectives index)

namespace Scaffold

/-- The scaffold after one more rule, which has the place `index`. -/
def step (scaffold : Scaffold) (index : Nat) : Rule → Except CompileError Scaffold
  | .separator .opening => .ok scaffold.openGroup
  | .separator .closing =>
    match scaffold.frames with
    | [] => .error (.structural .unbalancedSeparators index)
    | frame :: outer => do
      let tree ← frame.close
      return add { scaffold with frames := outer } tree
  | .logical connective =>
    match scaffold.frames with
    | [] => .error (.structural .improperOrder index)
    | frame :: outer => do
      let joined ← frame.join connective index
      return { scaffold with frames := joined :: outer }
  | .criteria criteria =>
    match scaffold.frames with
    | [] => .error (.structural .improperOrder index)
    | _ :: _ => .ok (scaffold.add (.leaf criteria))

/-- Go through the rules from the place `index` on. -/
def run (scaffold : Scaffold) (index : Nat) : List Rule → Except CompileError Scaffold
  | [] => .ok scaffold
  | rule :: rest => do
    let next ← scaffold.step index rule
    next.run (index + 1) rest

/-- A run over two lists is a run over the first one and then one over the second. -/
theorem run_append (scaffold : Scaffold) (index : Nat) (front back : List Rule) :
    scaffold.run index (front ++ back) =
      (do let next ← scaffold.run index front; next.run (index + front.length) back) := by
  induction front generalizing scaffold index with
  | nil => rfl
  | cons rule front ih =>
    simp only [List.cons_append, run, List.length_cons]
    cases scaffold.step index rule with
    | error error => rfl
    | ok next =>
      have hplace : index + 1 + front.length = index + (front.length + 1) := by omega
      rw [Outcome.ok_bind, Outcome.ok_bind, ih next (index + 1), hplace]

/-- The builder of a scaffold with one more tree: the tree's node is the last in the innermost
group. -/
theorem builder_add (scaffold : Scaffold) (tree : Tree) :
    (scaffold.add tree).builder =
      ⟨Tree.pendings scaffold.roots ++ Frame.enclose [tree.pending] scaffold.frames,
        Frame.way scaffold.roots.length scaffold.frames⟩ := by
  obtain ⟨roots, frames⟩ := scaffold
  cases frames with
  | nil => simp [add, builder, Frame.enclose, Frame.way, Tree.pendings]
  | cons frame outer =>
    have hway := Frame.way_congr roots.length (frame.add tree) frame outer
    simp only [add, builder, hway]
    simp [Frame.enclose, Frame.node, Tree.pendings, Frame.add]

/-- The open group of a scaffold's builder is the innermost one. -/
theorem builder_current? (roots : List Tree) (frame : Frame) (outer : List Frame) :
    (builder ⟨roots, frame :: outer⟩).current? =
      some (frame.connective, Tree.pendings frame.children) := by
  have hway := Frame.groupAt?_way (Tree.pendings roots) [] frame outer
  rw [Tree.pendings_length, List.append_nil] at hway
  exact hway

/-- A change of the open group of a scaffold's builder. -/
theorem builder_change (roots : List Tree) (frame : Frame) (outer : List Frame)
    (change : Option Connective → List Pending → Pending) :
    (builder ⟨roots, frame :: outer⟩).change change =
      ⟨Tree.pendings roots ++
          Frame.enclose [change frame.connective (Tree.pendings frame.children)] outer,
        Frame.way roots.length (frame :: outer)⟩ := by
  have hway := Frame.updateAt_way change (Tree.pendings roots) [] frame outer
  rw [Tree.pendings_length, List.append_nil] at hway
  simp only [Builder.change, builder, hway]

/-- Outside all groups no group is open. -/
theorem builder_current?_nil (roots : List Tree) : (builder ⟨roots, []⟩).current? = none := rfl

/-- Opening a group puts one more frame on the stack. -/
theorem builder_openGroup (scaffold : Scaffold) :
    scaffold.builder.openGroup = scaffold.openGroup.builder := by
  obtain ⟨roots, frames⟩ := scaffold
  cases frames with
  | nil =>
    simp only [Builder.openGroup, builder_current?_nil]
    simp [builder, openGroup, Frame.enclose, Frame.node, Frame.way, Tree.pendings]
  | cons frame outer =>
    simp only [Builder.openGroup, builder_current?, builder_change]
    simp [builder, openGroup, Frame.enclose, Frame.node, Frame.way, Tree.pendings]

/-- Closing a group takes its frame from the stack and adds its tree below. -/
theorem builder_closeGroup (scaffold : Scaffold) (index : Nat) :
    scaffold.builder.closeGroup index =
      (scaffold.step index (.separator .closing)).map builder := by
  obtain ⟨roots, frames⟩ := scaffold
  cases frames with
  | nil => rfl
  | cons frame outer =>
    simp only [Builder.closeGroup, builder_current?, builder_change, Tree.pendings_length, step,
      Frame.close]
    split
    · rfl
    · simp only [bind, Except.bind, pure, Except.pure, Except.map, builder_add]
      simp [builder, Frame.way_dropLast, Tree.pending]

/-- A connective goes into the frame on top. -/
theorem builder_join (scaffold : Scaffold) (connective : Connective) (index : Nat) :
    scaffold.builder.join connective index =
      (scaffold.step index (.logical connective)).map builder := by
  obtain ⟨roots, frames⟩ := scaffold
  cases frames with
  | nil => rfl
  | cons frame outer =>
    obtain ⟨found, children⟩ := frame
    cases found with
    | none =>
      have hway := Frame.way_congr roots.length ⟨none, children⟩ ⟨some connective, children⟩ outer
      simp only [Builder.join, builder_current?, builder_change, step, Frame.join]
      simp [bind, Except.bind, pure, Except.pure, Except.map, builder, Frame.enclose, Frame.node,
        hway]
    | some other =>
      simp only [Builder.join, builder_current?, step, Frame.join]
      split <;> rfl

/-- A comparison becomes the last item of the frame on top. -/
theorem builder_push (scaffold : Scaffold) (criteria : Criteria) (index : Nat) :
    scaffold.builder.push criteria index =
      (scaffold.step index (.criteria criteria)).map builder := by
  obtain ⟨roots, frames⟩ := scaffold
  cases frames with
  | nil => rfl
  | cons frame outer =>
    simp only [Builder.push, builder_current?, builder_change, step, Except.map, builder_add]
    simp [Frame.enclose, Frame.node, Tree.pending]

/-- Every step of the builder is the step of the scaffold that it holds. -/
theorem builder_step (scaffold : Scaffold) (index : Nat) (rule : Rule) :
    scaffold.builder.step index rule = (scaffold.step index rule).map builder := by
  cases rule with
  | separator mark =>
    cases mark with
    | opening => exact congrArg Except.ok (builder_openGroup scaffold)
    | closing => exact builder_closeGroup scaffold index
  | logical connective => exact builder_join scaffold connective index
  | criteria criteria => exact builder_push scaffold criteria index

/-- Every run of the builder is the run of the scaffold that it holds. -/
theorem builder_run (scaffold : Scaffold) (index : Nat) (rules : List Rule) :
    scaffold.builder.run index rules = (scaffold.run index rules).map builder := by
  induction rules generalizing scaffold index with
  | nil => rfl
  | cons rule rest ih =>
    rw [Builder.run, builder_step, run]
    cases scaffold.step index rule with
    | error error => rfl
    | ok next => exact ih next (index + 1)

/-- A finished tree leaves as many groups open. -/
theorem length_frames_add (scaffold : Scaffold) (tree : Tree) :
    (scaffold.add tree).frames.length = scaffold.frames.length := by
  obtain ⟨roots, frames⟩ := scaffold
  cases frames <;> rfl

/-- An opening mark opens a group, a closing mark closes one, and no other rule does either. -/
theorem length_frames_step {scaffold next : Scaffold} {index : Nat} {rule : Rule}
    (h : scaffold.step index rule = .ok next) :
    next.frames.length + [rule].count (.separator .closing) =
      scaffold.frames.length + [rule].count (.separator .opening) := by
  obtain ⟨roots, frames⟩ := scaffold
  cases rule with
  | separator mark =>
    cases mark with
    | opening =>
      obtain rfl : _ = next := Except.ok.inj h
      rfl
    | closing =>
      cases frames with
      | nil => simp [step] at h
      | cons frame outer =>
        obtain ⟨tree, _, hadd⟩ := Outcome.bind_eq_ok_iff.mp h
        obtain rfl : add ⟨roots, outer⟩ tree = next := Except.ok.inj hadd
        rw [length_frames_add]
        rfl
  | logical connective =>
    cases frames with
    | nil => simp [step] at h
    | cons frame outer =>
      obtain ⟨joined, _, hjoin⟩ := Outcome.bind_eq_ok_iff.mp h
      obtain rfl : _ = next := Except.ok.inj hjoin
      rfl
  | criteria criteria =>
    cases frames with
    | nil => simp [step] at h
    | cons frame outer =>
      obtain rfl : _ = next := Except.ok.inj h
      rfl

/-- After a run, as many more groups are open as it went over more opening marks than closing ones. -/
theorem length_frames_run {scaffold next : Scaffold} {index : Nat} {rules : List Rule}
    (h : scaffold.run index rules = .ok next) :
    next.frames.length + rules.count (.separator .closing) =
      scaffold.frames.length + rules.count (.separator .opening) := by
  induction rules generalizing scaffold index with
  | nil =>
    obtain rfl : scaffold = next := Except.ok.inj h
    rfl
  | cons rule rest ih =>
    obtain ⟨middle, hstep, hrest⟩ := Outcome.bind_eq_ok_iff.mp h
    have hmiddle := length_frames_step hstep
    have hnext := ih hrest
    rw [← List.singleton_append, List.count_append, List.count_append]
    omega

/-- The single tree of a scaffold without open groups. -/
def root (scaffold : Scaffold) : Except CompileError Tree :=
  match scaffold.frames, scaffold.roots with
  | _ :: _, _ => .error (.structural .unbalancedSeparators none)
  | [], [] => .error (.structural .unbalancedSeparators none)
  | [], [root] => .ok root
  | [], _ => .error (.structural .multipleRoots none)

/-- The root of a scaffold's builder. -/
theorem builder_root (scaffold : Scaffold) : scaffold.builder.root = scaffold.root := by
  obtain ⟨roots, frames⟩ := scaffold
  cases frames with
  | nil =>
    match roots with
    | [] => rfl
    | [tree] => simp [builder, Builder.root, root, Frame.way, Frame.enclose, Tree.pendings,
        Tree.finish_pending]
    | first :: second :: rest => rfl
  | cons frame outer =>
    have hway := Frame.way_ne_nil roots.length frame outer
    simp [builder, Builder.root, root, hway]

end Scaffold

/-- The tree of a rule list is the root of the scaffold that the rules leave. -/
theorem Tree.ofRules_eq_scaffold (rules : List Rule) :
    Tree.ofRules rules = (do let scaffold ← Scaffold.run {} 0 rules; scaffold.root) := by
  have hrun := Scaffold.builder_run {} 0 rules
  unfold Tree.ofRules
  rw [show ({} : Builder) = ({} : Scaffold).builder from rfl, hrun]
  cases Scaffold.run {} 0 rules with
  | error error => rfl
  | ok scaffold => exact Scaffold.builder_root scaffold

end FilterRules
