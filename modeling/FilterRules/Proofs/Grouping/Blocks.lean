import FilterRules.Proofs.Search.Acceptance

/-!
# Blocks of comparisons

Comparisons that are meant for one and the same element form a block. The blocks of a tree are told by
which of its groups are such a block as a whole; a comparison outside all of these is a block of its own.
Blocks leave the comparisons in their order, so that two ways to form them can be compared by which
places lie together in one block. Where the groups that count are made of items with at most one
comparison each, two places lie together under two conditions on groups exactly when they do under each
of them. Where each group has several comparisons, an item with one comparison at most is a comparison.
-/

namespace FilterRules

variable {α β : Type}

/-- Whether two places in a row of blocks lie in the same block. -/
def together : List (List α) → Nat → Nat → Bool
  | [], _, _ => false
  | block :: blocks, i, j =>
    if i < block.length ∨ j < block.length then i < block.length && j < block.length
    else together blocks (i - block.length) (j - block.length)

/-- Places of two rows of blocks lie in the first row or in the second. -/
theorem together_append (front back : List (List α)) (i j : Nat) :
    together (front ++ back) i j =
      if i < front.flatten.length ∨ j < front.flatten.length then together front i j
      else together back (i - front.flatten.length) (j - front.flatten.length) := by
  induction front generalizing i j with
  | nil => simp
  | cons block front ih =>
    rw [List.cons_append, together, together, List.flatten_cons, List.length_append]
    by_cases hblock : i < block.length ∨ j < block.length
    · rw [if_pos hblock, if_pos hblock, if_pos (by omega)]
    · rw [if_neg hblock, if_neg hblock, ih, Nat.sub_sub, Nat.sub_sub]
      by_cases hfront : i < block.length + front.flatten.length ∨
          j < block.length + front.flatten.length
      · rw [if_pos hfront, if_pos (by omega)]
      · rw [if_neg hfront, if_neg (by omega)]

/-- No two places lie together in blocks of one comparison at most. -/
theorem together_of_length_le {blocks : List (List α)} (h : ∀ block ∈ blocks, block.length ≤ 1)
    {i j : Nat} (hne : i ≠ j) : together blocks i j = false := by
  induction blocks generalizing i j with
  | nil => rfl
  | cons block blocks ih =>
    obtain ⟨hblock, hrest⟩ := List.forall_mem_cons.mp h
    rw [together]
    split
    case isTrue =>
      have hnot : ¬(i < block.length ∧ j < block.length) := by omega
      simpa using hnot
    case isFalse => exact ih hrest (by omega)

/-- Whether two places lie together depends on the lengths of the blocks alone. -/
theorem together_congr {R : α → β → Prop} {blocks : List (List α)} {others : List (List β)}
    (h : List.Forall₂ (List.Forall₂ R) blocks others) (i j : Nat) :
    together blocks i j = together others i j := by
  induction h generalizing i j with
  | nil => rfl
  | cons hblock _ ih => rw [together, together, hblock.length_eq, ih]

namespace Tree

mutual

/-- The blocks of a tree: the groups that are one as a whole, and all other comparisons. -/
def blocks (whole : List Tree → Bool) : Tree → List (List Criteria)
  | .leaf criteria => [[criteria]]
  | .group _ children => if whole children then [leavesOf children] else blocksOf whole children

/-- The blocks of some trees. -/
def blocksOf (whole : List Tree → Bool) : List Tree → List (List Criteria)
  | [] => []
  | tree :: trees => tree.blocks whole ++ blocksOf whole trees

end

variable {whole first second : List Tree → Bool} {children : List Tree}

mutual

/-- The comparisons of a tree stand in its blocks, in order. -/
theorem flatten_blocks (whole : List Tree → Bool) : (tree : Tree) →
    (tree.blocks whole).flatten = tree.leaves
  | .leaf criteria => rfl
  | .group connective children => by
    rw [blocks, leaves]
    split
    · simp
    · exact flatten_blocksOf whole children

/-- The comparisons of some trees stand in their blocks, in order. -/
theorem flatten_blocksOf (whole : List Tree → Bool) : (trees : List Tree) →
    (blocksOf whole trees).flatten = leavesOf trees
  | [] => rfl
  | tree :: trees => by
    rw [blocksOf, List.flatten_append, flatten_blocks whole tree, flatten_blocksOf whole trees,
      leavesOf]

end

mutual

/-- A block of a tree is a single comparison or all of a group that counts. -/
theorem of_mem_blocks {block : List Criteria} : (tree : Tree) → block ∈ tree.blocks whole →
    (∃ criteria, block = [criteria]) ∨ ∃ children, whole children = true ∧ block = leavesOf children
  | .leaf criteria, h => Or.inl ⟨criteria, List.mem_singleton.mp h⟩
  | .group connective children, h => by
    rw [blocks] at h
    split at h
    case isTrue hcounts => exact Or.inr ⟨children, hcounts, List.mem_singleton.mp h⟩
    case isFalse => exact of_mem_blocksOf children h

/-- A block of some trees is a single comparison or all of a group that counts. -/
theorem of_mem_blocksOf {block : List Criteria} : (trees : List Tree) →
    block ∈ blocksOf whole trees →
    (∃ criteria, block = [criteria]) ∨ ∃ children, whole children = true ∧ block = leavesOf children
  | [], h => by simp [blocksOf] at h
  | tree :: trees, h => (List.mem_append.mp h).elim (of_mem_blocks tree) (of_mem_blocksOf trees)

end

/-- The comparisons of a tree are those in its blocks. -/
theorem mem_leaves_iff (whole : List Tree → Bool) {criteria : Criteria} {tree : Tree} :
    criteria ∈ tree.leaves ↔ ∃ block ∈ tree.blocks whole, criteria ∈ block := by
  rw [← flatten_blocks whole tree, List.mem_flatten]

mutual

/-- The blocks of a tree with other comparisons, when the same groups count. -/
theorem blocks_map {change : Criteria → Criteria}
    (hwhole : ∀ children, whole (mapAll change children) = whole children) : (tree : Tree) →
    (tree.map change).blocks whole = (tree.blocks whole).map (List.map change)
  | .leaf criteria => rfl
  | .group connective children => by
    rw [map, blocks, blocks, hwhole]
    split
    · rw [leavesOf_mapAll]
      rfl
    · exact blocksOf_mapAll hwhole children

/-- The blocks of some trees with other comparisons, when the same groups count. -/
theorem blocksOf_mapAll {change : Criteria → Criteria}
    (hwhole : ∀ children, whole (mapAll change children) = whole children) : (trees : List Tree) →
    blocksOf whole (mapAll change trees) = (blocksOf whole trees).map (List.map change)
  | [] => rfl
  | tree :: trees => by
    rw [mapAll, blocksOf, blocksOf, List.map_append, blocks_map hwhole tree,
      blocksOf_mapAll hwhole trees]

end

/-- The blocks of a tree with other comparisons are those of the tree, read through the change. -/
theorem forall₂_blocks_map {change : Criteria → Criteria} {R : Criteria → α → Prop}
    {rows : List (List α)} (hwhole : ∀ children, whole (mapAll change children) = whole children)
    (tree : Tree) :
    List.Forall₂ (List.Forall₂ R) ((tree.map change).blocks whole) rows ↔
      List.Forall₂ (List.Forall₂ fun criteria => R (change criteria)) (tree.blocks whole) rows := by
  rw [blocks_map hwhole, List.forall₂_map_left_iff]
  simp only [List.forall₂_map_left_iff]

/-- Whether each of some trees has one comparison at most. -/
def areLone (children : List Tree) : Bool := children.all fun child => child.leaves.length ≤ 1

/-- Other comparisons are as many. -/
theorem areLone_mapAll (change : Criteria → Criteria) (children : List Tree) :
    areLone (mapAll change children) = areLone children := by
  simp [areLone, mapAll_eq_map, List.all_map, Function.comp_def, leaves_map]

/-- The blocks of trees with one comparison each at most are no longer than that. -/
theorem length_le_of_areLone (h : areLone children = true) :
    ∀ block ∈ blocksOf whole children, block.length ≤ 1 := by
  induction children with
  | nil => simp [blocksOf]
  | cons child children ih =>
    obtain ⟨hchild, hchildren⟩ : child.leaves.length ≤ 1 ∧ areLone children = true := by
      simpa [areLone] using h
    intro block hblock
    rcases List.mem_append.mp hblock with hmem | hmem
    · rw [← flatten_blocks whole child] at hchild
      exact (List.sublist_flatten_of_mem hmem).length_le.trans hchild
    · exact ih hchildren block hmem

mutual

/-- The comparison of a tree that has one at most is a block of its own, when only groups with several
comparisons count. -/
theorem blocks_of_length_le
    (hwhole : ∀ children, whole children = true → 2 ≤ (leavesOf children).length) : (tree : Tree) →
    tree.leaves.length ≤ 1 → tree.blocks whole = tree.leaves.map fun criteria => [criteria]
  | .leaf criteria, _ => rfl
  | .group connective children, h => by
    rw [leaves] at h
    have hpart : whole children = false := by
      cases hchoice : whole children with
      | false => rfl
      | true =>
        have hmany := hwhole children hchoice
        omega
    rw [blocks, hpart, leaves]
    exact blocksOf_of_length_le hwhole children h

/-- The comparison of some trees that have one at most is a block of its own. -/
theorem blocksOf_of_length_le
    (hwhole : ∀ children, whole children = true → 2 ≤ (leavesOf children).length) :
    (trees : List Tree) → (leavesOf trees).length ≤ 1 →
    blocksOf whole trees = (leavesOf trees).map fun criteria => [criteria]
  | [], _ => rfl
  | tree :: trees, h => by
    rw [leavesOf, List.length_append] at h
    rw [blocksOf, leavesOf, List.map_append, blocks_of_length_le hwhole tree (by omega),
      blocksOf_of_length_le hwhole trees (by omega)]

end

mutual

/-- When groups count only if each of their items has one comparison at most, two places of a tree lie
together under two conditions on groups exactly when they do under each of them. -/
theorem together_blocks_and (hfirst : ∀ children, first children = true → areLone children = true)
    (hsecond : ∀ children, second children = true → areLone children = true) : (tree : Tree) →
    {i j : Nat} → i ≠ j →
    together (tree.blocks fun children => first children && second children) i j =
      (together (tree.blocks first) i j && together (tree.blocks second) i j)
  | .leaf criteria, i, j, hne => by
    have hone : ∀ block ∈ [[criteria]], block.length ≤ 1 := by simp
    simp only [blocks, together_of_length_le hone hne, Bool.and_false]
  | .group connective children, i, j, hne => by
    have hapart (whole : List Tree → Bool) (hlone : areLone children = true) :
        together (blocksOf whole children) i j = false :=
      together_of_length_le (length_le_of_areLone hlone) hne
    rw [blocks, blocks, blocks]
    -- A group that is one block under one of the conditions only comes apart into single comparisons
    -- under the other one, since its items have no more than one each.
    cases hone : first children with
    | true =>
      cases htwo : second children with
      | true => simp
      | false => simp [hapart _ (hfirst children hone)]
    | false =>
      cases htwo : second children with
      | true => simp [hapart _ (hsecond children htwo)]
      | false => simpa using together_blocksOf_and hfirst hsecond children hne

/-- Two places of some trees lie together under two conditions exactly when they do under each. -/
theorem together_blocksOf_and
    (hfirst : ∀ children, first children = true → areLone children = true)
    (hsecond : ∀ children, second children = true → areLone children = true) :
    (trees : List Tree) → {i j : Nat} → i ≠ j →
    together (blocksOf (fun children => first children && second children) trees) i j =
      (together (blocksOf first trees) i j && together (blocksOf second trees) i j)
  | [], i, j, _ => by simp [blocksOf, together]
  | tree :: trees, i, j, hne => by
    simp only [blocksOf, together_append, flatten_blocks]
    split
    case isTrue => exact together_blocks_and hfirst hsecond tree hne
    case isFalse => exact together_blocksOf_and hfirst hsecond trees (by omega)

end

mutual

/-- Whether each group of a tree has several comparisons. -/
def isWide : Tree → Bool
  | .leaf _ => true
  | .group _ children => 2 ≤ (leavesOf children).length && areWide children

/-- Whether each group of some trees has several comparisons. -/
def areWide : List Tree → Bool
  | [] => true
  | tree :: trees => tree.isWide && areWide trees

end

mutual

/-- A tree of wide groups has the same blocks under conditions that agree on wide trees. -/
theorem blocks_congr (h : ∀ children, areWide children = true → first children = second children) :
    (tree : Tree) → tree.isWide = true → tree.blocks first = tree.blocks second
  | .leaf criteria, _ => rfl
  | .group connective children, hwide => by
    have hinner : areWide children = true := (Bool.and_eq_true_iff.mp hwide).2
    rw [blocks, blocks, h children hinner, blocksOf_congr h children hinner]

/-- Trees of wide groups have the same blocks under conditions that agree on wide trees. -/
theorem blocksOf_congr (h : ∀ children, areWide children = true → first children = second children) :
    (trees : List Tree) → areWide trees = true → blocksOf first trees = blocksOf second trees
  | [], _ => rfl
  | tree :: trees, hwide => by
    obtain ⟨hone, hrest⟩ := Bool.and_eq_true_iff.mp hwide
    rw [blocksOf, blocksOf, blocks_congr h tree hone, blocksOf_congr h trees hrest]

end

end Tree

end FilterRules
