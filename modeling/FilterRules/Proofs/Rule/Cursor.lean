import FilterRules.Proofs.Rule.Scaffold

/-!
# The cursor of the builder

The builder keeps its place in the forest as a path of indices, which nothing ties to the forest. Over
every rule list, in order or not, the path stays good: it leads through groups to the one that is
open, it follows the last child at each level, it has one index for each group that is open, and all
groups beside it are closed. So no group is open exactly where as many groups ended as began, and only
there does a further root begin.
-/

namespace FilterRules

namespace Pending

/-- A path of child indices leads from a list of nodes to a node, through groups only. -/
inductive At : List Nat → List Pending → Pending → Prop
  /-- To one of the nodes. -/
  | here {index : Nat} {nodes : List Pending} {node : Pending} (h : nodes[index]? = some node) :
      At [index] nodes node
  /-- To one of the nodes, which is a group, and on from its children. -/
  | inside {index : Nat} {path : List Nat} {nodes children : List Pending}
      {connective : Option Connective} {node : Pending}
      (h : nodes[index]? = some (.group connective children)) (hrest : At path children node) :
      At (index :: path) nodes node

/-- The path that takes the last node at each of a number of levels, as long as it is a group. -/
def lastPath : Nat → List Pending → List Nat
  | 0, _ => []
  | depth + 1, nodes =>
    match nodes.getLast? with
    | some (.group _ children) => (nodes.length - 1) :: lastPath depth children
    | _ => []

end Pending

/-- The cursor of a builder fits the forest, and the rules that were read so far. -/
structure Builder.IsAnchored (builder : Builder) (rules : List Rule) : Prop where
  /-- The cursor is empty or leads to a group. -/
  leads : builder.cursor = [] ∨ ∃ connective children,
    Pending.At builder.cursor builder.forest (.group connective children)
  /-- The cursor takes the last root, and then the last child at each level. -/
  last : builder.cursor = Pending.lastPath builder.cursor.length builder.forest
  /-- The cursor has one index for each group that began and has not ended. -/
  depth : builder.cursor.length + rules.count (.separator .closing) =
    rules.count (.separator .opening)
  /-- Every group beside the way of the cursor has its connective. -/
  closed : ∀ path connective children,
    Pending.At path builder.forest (.group connective children) → ¬ path <+: builder.cursor →
      connective.isSome

namespace Pending

variable {path : List Nat} {nodes children : List Pending} {node : Pending}
  {connective : Option Connective}

/-- A path to a node is not empty. -/
theorem At.ne_nil (h : At path nodes node) : path ≠ [] := by
  cases h <;> simp

/-- The group that a path leads to is the one that is found there. -/
theorem At.groupAt?_eq (h : At path nodes (.group connective children)) :
    groupAt? path nodes = some (connective, children) := by
  generalize hnode : Pending.group connective children = node at h
  induction h with
  | here h =>
    subst hnode
    simp [groupAt?, h]
  | inside h hrest ih =>
    have hpath := List.isEmpty_eq_false_iff.mpr hrest.ne_nil
    simp only [groupAt?, h, hpath, Bool.false_eq_true, if_false]
    exact ih hnode

/-- A node among some nodes and one behind them is one of the nodes or the one behind them. -/
theorem getElem?_concat_cases {index : Nat} {last : Pending}
    (h : (nodes ++ [last])[index]? = some node) :
    nodes[index]? = some node ∨ (index = nodes.length ∧ node = last) := by
  rw [List.getElem?_append] at h
  split at h
  · exact Or.inl h
  · obtain ⟨hindex, hlast⟩ := List.getElem?_eq_some_iff.mp h
    simp only [List.length_singleton] at hindex
    refine Or.inr ⟨by omega, ?_⟩
    simpa using hlast.symm

/-- A path from some nodes and one group behind them leads to a node before the group, to the group, or
on from its children. -/
theorem At.cases_concat (h : At path (nodes ++ [.group connective children]) node) :
    At path nodes node ∨ path = [nodes.length] ∨
      ∃ inner, path = nodes.length :: inner ∧ At inner children node := by
  cases h with
  | here h =>
    rcases getElem?_concat_cases h with hfront | ⟨rfl, _⟩
    · exact Or.inl (.here hfront)
    · exact Or.inr (Or.inl rfl)
  | inside h hrest =>
    rcases getElem?_concat_cases h with hfront | ⟨rfl, hgroup⟩
    · exact Or.inl (.inside hfront hrest)
    · obtain ⟨rfl, rfl⟩ := Pending.group.inj hgroup
      exact Or.inr (Or.inr ⟨_, rfl, hrest⟩)

/-- One of the nodes of finished trees is that of a finished tree. -/
theorem exists_tree_of_getElem? {trees : List Tree} {index : Nat}
    (h : (Tree.pendings trees)[index]? = some node) : ∃ tree : Tree, node = tree.pending := by
  induction trees generalizing index with
  | nil => simp [Tree.pendings] at h
  | cons tree trees ih =>
    cases index with
    | zero => exact ⟨tree, (Option.some.inj h).symm⟩
    | succ index => exact ih h

/-- Every group that a path from finished trees leads to has its connective. -/
theorem At.isSome_of_pendings {trees : List Tree}
    (h : At path (Tree.pendings trees) (.group connective children)) : connective.isSome := by
  generalize hnodes : Tree.pendings trees = nodes at h
  generalize hnode : Pending.group connective children = node at h
  induction h generalizing trees with
  | here h =>
    subst hnodes hnode
    obtain ⟨tree, htree⟩ := exists_tree_of_getElem? h
    cases tree with
    | leaf criteria => simp [Tree.pending] at htree
    | group found items =>
      obtain ⟨rfl, _⟩ := Pending.group.inj htree
      rfl
  | inside h _ ih =>
    subst hnodes
    obtain ⟨tree, htree⟩ := exists_tree_of_getElem? h
    cases tree with
    | leaf criteria => simp [Tree.pending] at htree
    | group found items =>
      obtain ⟨_, rfl⟩ := Pending.group.inj htree
      exact ih rfl hnode

/-- A path of last children to the innermost open group, beside which all trees are finished. -/
inductive OnLast : List Nat → List Pending → Prop
  /-- No group is open: all trees are finished. -/
  | outside (trees : List Tree) : OnLast [] (Tree.pendings trees)
  /-- A group is open behind finished trees. -/
  | inside (trees : List Tree) (connective : Option Connective) {path : List Nat}
      {children : List Pending} (h : OnLast path children) :
      OnLast (trees.length :: path) (Tree.pendings trees ++ [.group connective children])

/-- The path takes the last node at each level. -/
theorem OnLast.eq_lastPath (h : OnLast path nodes) : path = lastPath path.length nodes := by
  induction h with
  | outside trees => rfl
  | inside trees connective h ih => simp [lastPath, ← ih]

/-- The path leads to a group, if it is not empty. -/
theorem OnLast.exists_at (h : OnLast path nodes) (hne : path ≠ []) :
    ∃ connective children, At path nodes (.group connective children) := by
  induction h with
  | outside trees => exact absurd rfl hne
  | @inside trees connective path children h ih =>
    have hlast : (Tree.pendings trees ++ [.group connective children])[trees.length]? =
        some (.group connective children) := by
      rw [List.getElem?_append_right (by simp)]
      simp
    cases path with
    | nil => exact ⟨connective, children, .here hlast⟩
    | cons index path =>
      obtain ⟨found, items, hat⟩ := ih (by simp)
      exact ⟨found, items, .inside hlast hat⟩

/-- A group that the path does not go through has its connective. -/
theorem OnLast.isSome_of_at {other : List Nat} (h : OnLast path nodes)
    (hat : At other nodes (.group connective children)) (hother : ¬ other <+: path) :
    connective.isSome := by
  induction h generalizing other with
  | outside trees => exact hat.isSome_of_pendings
  | inside trees found h ih =>
    rcases hat.cases_concat with hfront | rfl | ⟨inner, rfl, hinner⟩
    · exact hfront.isSome_of_pendings
    · simp at hother
    · refine ih hinner fun hthrough => hother ?_
      rw [Tree.pendings_length]
      exact (List.prefix_cons_inj _).mpr hthrough

end Pending

namespace Frame

/-- The way to an open group has one index for each group that is open. -/
theorem length_way (roots : Nat) (frames : List Frame) : (way roots frames).length = frames.length := by
  cases frames with
  | nil => rfl
  | cons frame outer =>
    induction outer generalizing frame with
    | nil => rfl
    | cons next outer ih => simp [way, ih]

/-- The way to the innermost group goes on with a path inside it. -/
theorem onLast_way (roots : List Tree) {path : List Nat} {inner : List Pending} (frame : Frame)
    (outer : List Frame) (h : Pending.OnLast path (Tree.pendings frame.children ++ inner)) :
    Pending.OnLast (way roots.length (frame :: outer) ++ path)
      (Tree.pendings roots ++ enclose inner (frame :: outer)) := by
  induction outer generalizing frame inner path with
  | nil => exact .inside roots frame.connective h
  | cons next outer ih =>
    have hnext : Pending.OnLast (next.children.length :: path)
        (Tree.pendings next.children ++ [frame.node inner]) :=
      .inside next.children frame.connective h
    rw [way, List.append_assoc]
    exact ih next hnext

end Frame

/-- The cursor of a scaffold's builder is a path of last children to the innermost open group. -/
theorem Scaffold.onLast_builder (scaffold : Scaffold) :
    Pending.OnLast scaffold.builder.cursor scaffold.builder.forest := by
  obtain ⟨roots, frames⟩ := scaffold
  cases frames with
  | nil =>
    have houtside := Pending.OnLast.outside roots
    simpa [builder, Frame.way, Frame.enclose] using houtside
  | cons frame outer =>
    have hinside : Pending.OnLast [] (Tree.pendings frame.children ++ []) := by
      rw [List.append_nil]
      exact .outside frame.children
    have hway := Frame.onLast_way roots frame outer hinside
    rwa [List.append_nil] at hway

namespace Pending

/-- A change below some nodes leaves as many of them. -/
theorem length_updateAt (change : Option Connective → List Pending → Pending) (path : List Nat)
    (nodes : List Pending) : (updateAt change path nodes).length = nodes.length := by
  cases path with
  | nil => rfl
  | cons index path => simp [updateAt]

end Pending

namespace Builder

variable {builder next : Builder} {rules : List Rule}

/-- A rule adds a root when it opens a group where none is open, and else it leaves as many roots. -/
theorem length_forest_step {index : Nat} {rule : Rule} (h : builder.step index rule = .ok next) :
    next.forest.length = builder.forest.length +
      if rule = .separator .opening ∧ builder.current? = none then 1 else 0 := by
  cases rule with
  | separator mark =>
    cases mark with
    | opening =>
      obtain rfl : builder.openGroup = next := Except.ok.inj h
      cases hcurrent : builder.current? with
      | none => simp [openGroup, hcurrent]
      | some group => simp [openGroup, hcurrent, change, Pending.length_updateAt]
    | closing =>
      simp only [step, closeGroup] at h
      split at h
      case h_1 => simp at h
      case h_2 =>
        split at h
        case isTrue => simp at h
        case isFalse =>
          obtain rfl := Except.ok.inj h
          simp [change, Pending.length_updateAt]
  | logical connective =>
    simp only [step, join] at h
    split at h
    case h_1 => simp at h
    case h_2 =>
      split at h
      case isTrue =>
        obtain rfl := Except.ok.inj h
        simp
      case isFalse => simp at h
    case h_3 =>
      obtain rfl := Except.ok.inj h
      simp [change, Pending.length_updateAt]
  | criteria criteria =>
    simp only [step, push] at h
    split at h
    case h_1 => simp at h
    case h_2 =>
      obtain rfl := Except.ok.inj h
      simp [change, Pending.length_updateAt]

/-- What the builder has read leaves its cursor in place. -/
theorem isAnchored_of_run (h : Builder.run {} 0 rules = .ok builder) : builder.IsAnchored rules := by
  have hrun := Scaffold.builder_run {} 0 rules
  rw [show ({} : Scaffold).builder = {} from rfl, h] at hrun
  obtain ⟨scaffold, hscaffold, rfl⟩ := Outcome.map_eq_ok_iff.mp hrun.symm
  have hlast := scaffold.onLast_builder
  have hdepth := Scaffold.length_frames_run hscaffold
  constructor
  · by_cases hcursor : scaffold.builder.cursor = []
    · exact Or.inl hcursor
    · exact Or.inr (hlast.exists_at hcursor)
  · exact hlast.eq_lastPath
  · rw [Scaffold.builder, Frame.length_way, hdepth]
    exact Nat.zero_add _
  · exact fun path connective children hat hpath => hlast.isSome_of_at hat hpath

/-- No group is open exactly when as many groups ended as began. -/
theorem IsAnchored.current?_eq_none_iff (h : builder.IsAnchored rules) :
    builder.current? = none ↔
      rules.count (.separator .opening) = rules.count (.separator .closing) := by
  have hdepth := h.depth
  rcases h.leads with hcursor | ⟨connective, children, hat⟩
  · have hnone : builder.current? = none := by rw [current?, hcursor, Pending.groupAt?]
    rw [hcursor, List.length_nil] at hdepth
    simp only [hnone, true_iff]
    omega
  · have hsome : builder.current? = some (connective, children) := hat.groupAt?_eq
    have hpositive := List.length_pos_iff.mpr hat.ne_nil
    simp only [hsome, reduceCtorEq, false_iff]
    omega

/-- Over every rule list that the builder goes through, in order or not, the cursor stays in place: no
group is open exactly where as many groups ended as began, and a further root begins only there. -/
theorem cursor_of_run (h : Builder.run {} 0 rules = .ok builder) :
    builder.IsAnchored rules ∧
    (builder.current? = none ↔
      rules.count (.separator .opening) = rules.count (.separator .closing)) ∧
    ∀ rule next, builder.step rules.length rule = .ok next →
      next.forest.length = builder.forest.length +
        if rule = .separator .opening ∧
          rules.count (.separator .opening) = rules.count (.separator .closing) then 1 else 0 := by
  have hanchored := isAnchored_of_run h
  have hnone := hanchored.current?_eq_none_iff
  refine ⟨hanchored, hnone, ?_⟩
  intro rule next hstep
  simpa only [hnone] using length_forest_step hstep

/-- A second root, in which a group is open, in a list that is not in order. -/
theorem cursor_of_run_second :
    let book : Criteria := ⟨"type", .equal, .value (.text "book"), false⟩
    let rules : List Rule := [.separator .opening, .separator .closing, .separator .opening,
      .criteria book, .criteria book, .logical .or, .separator .opening, .criteria book,
      .separator .closing, .separator .opening, .logical .and]
    let builder : Builder := ⟨[.group (some .and) [], .group (some .or) [.leaf book, .leaf book,
      .group (some .and) [.leaf book], .group (some .and) []]], [1, 3]⟩
    Builder.run {} 0 rules = .ok builder ∧ builder.IsAnchored rules ∧
      (builder.current? = none ↔
        rules.count (.separator .opening) = rules.count (.separator .closing)) ∧
      ∀ rule next, builder.step rules.length rule = .ok next →
        next.forest.length = builder.forest.length +
          if rule = .separator .opening ∧
            rules.count (.separator .opening) = rules.count (.separator .closing) then 1 else 0 := by
  intro book rules builder
  have hrun : Builder.run {} 0 rules = .ok builder := rfl
  exact ⟨hrun, cursor_of_run hrun⟩

end Builder

end FilterRules
