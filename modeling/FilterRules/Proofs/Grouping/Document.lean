import FilterRules.Proofs.Document.Acceptance
import FilterRules.Proofs.Document.Leaves
import FilterRules.Proofs.Document.Reduction
import FilterRules.Proofs.Grouping.Blocks
import FilterRules.Proofs.Projection
import FilterRules.Proofs.Search.Combination

/-!
# The blocks of a document query

The clauses under one condition on an element form a block, seen from the document again; a clause
outside all of these is a block of its own. In the query of plain comparisons the blocks are those of the
tree in which a group counts when each of its items has one comparison at most and the comparisons share a
list. Groups around a single comparison do not show, since they come down to its clause.
-/

namespace FilterRules

mutual

/-- The blocks of a query: the clauses inside each condition on an element, and all other ones. -/
def DocumentQuery.blocks : DocumentQuery → List (List FieldClause)
  | .matchAll => []
  | .fields clauses => FieldClause.blocks clauses
  | .and queries => DocumentQuery.blocksOf queries
  | .or queries => DocumentQuery.blocksOf queries

/-- The blocks of some queries. -/
def DocumentQuery.blocksOf : List DocumentQuery → List (List FieldClause)
  | [] => []
  | query :: queries => query.blocks ++ DocumentQuery.blocksOf queries

/-- The blocks of some clauses. -/
def FieldClause.blocks : List FieldClause → List (List FieldClause)
  | [] => []
  | .mk path (.elementMatch query) :: clauses =>
    query.clausesFrom (path ++ ".") :: FieldClause.blocks clauses
  | .mk path condition :: clauses => [.mk path condition] :: FieldClause.blocks clauses

end

/-- The blocks of some queries are those of each of them. -/
theorem DocumentQuery.blocksOf_eq_flatMap (queries : List DocumentQuery) :
    DocumentQuery.blocksOf queries = queries.flatMap DocumentQuery.blocks := by
  induction queries with
  | nil => rfl
  | cons query queries ih => rw [DocumentQuery.blocksOf, ih, List.flatMap_cons]

/-- The blocks of joined queries are those of each of them. -/
theorem DocumentQuery.blocks_combine (connective : Connective) (queries : List DocumentQuery) :
    (combine connective queries).blocks = queries.flatMap blocks := by
  cases connective <;> exact blocksOf_eq_flatMap queries

/-- A comparing clause is a block of its own. -/
theorem FieldClause.Compares.blocks {clause : FieldClause} (h : clause.Compares) :
    FieldClause.blocks [clause] = [[clause]] := by
  obtain ⟨path, condition⟩ := clause
  cases condition with
  | elementMatch query => exact absurd rfl (h query)
  | _ => rfl

/-- The clause of a plain criteria compares its attribute. -/
theorem Criteria.clause_of_isPlain {schema : Schema} {criteria : Criteria} {clause : FieldClause}
    (hplain : criteria.isPlain = true) (h : criteria.clause schema = .ok clause) :
    clause.path = criteria.path ∧ clause.Compares := by
  obtain ⟨segments, hpath, _⟩ := Criteria.exists_path_of_isPlain hplain
  obtain ⟨condition, hcondition, h⟩ := Outcome.bind_eq_ok_iff.mp h
  rw [AttributePath.parseAt_eq_ok_iff.mpr hpath] at h
  obtain rfl := Except.ok.inj h
  exact ⟨rfl, condition_ne_elementMatch hcondition⟩

/-- Whether a group is a block of a document query: when each of its items has one comparison at most,
and the comparisons share a list. -/
def Schema.joinsLone (schema : Schema) (children : List Tree) : Bool :=
  Tree.areLone children &&
    (schema.groupingRoot? .array ((Tree.leavesOf children).map Criteria.path)).isSome

/-- The same groups are blocks with other comparisons on the same attributes. -/
theorem Schema.joinsLone_mapAll {change : Criteria → Criteria}
    (hpath : ∀ criteria, (change criteria).path = criteria.path) (schema : Schema)
    (children : List Tree) :
    schema.joinsLone (Tree.mapAll change children) = schema.joinsLone children := by
  rw [joinsLone, joinsLone, Tree.areLone_mapAll, Tree.leavesOf_mapAll, List.map_map]
  simp only [Function.comp_def, hpath]

/-- Comparisons that share a list are several. -/
theorem Schema.two_le_of_joinsLone {schema : Schema} {children : List Tree}
    (h : schema.joinsLone children = true) : 2 ≤ (Tree.leavesOf children).length := by
  by_contra hfew
  have hnone : (Tree.leavesOf children).length < 2 := by omega
  simp [joinsLone, groupingRoot?, hnone] at h

variable {schema : Schema} {tree : Tree} {children : List Tree} {members : List Member}

/-- What a tree comes down to, by its comparisons: nothing without any, the clause of a single one, and
a query with the blocks of the tree for several. -/
def Tree.StandsFor (schema : Schema) (tree : Tree) : Option Member → Prop
  | none => tree.leaves = []
  | some (.clause single) =>
    ∃ criteria, tree.leaves = [criteria] ∧ criteria.clause schema = .ok single
  | some (.query joined) => 2 ≤ tree.leaves.length ∧
    List.Forall₂ (List.Forall₂ fun criteria clause => criteria.clause schema = .ok clause)
      (tree.blocks schema.joinsLone) joined.blocks

/-- The blocks of a tree are those of the query that it comes down to. -/
theorem Tree.StandsFor.blocks {found : Option Member} (h : tree.StandsFor schema found)
    (hplain : ∀ criteria ∈ tree.leaves, criteria.isPlain = true) :
    List.Forall₂ (List.Forall₂ fun criteria clause => criteria.clause schema = .ok clause)
      (tree.blocks schema.joinsLone) (found.toList.flatMap fun member => member.toQuery.blocks) := by
  have hfew : tree.leaves.length ≤ 1 →
      tree.blocks schema.joinsLone = tree.leaves.map fun criteria => [criteria] :=
    Tree.blocks_of_length_le (fun _ => Schema.two_le_of_joinsLone) tree
  match found, h with
  | none, h =>
    have hleaves : tree.leaves = [] := h
    rw [hfew (by simp [hleaves]), hleaves]
    exact .nil
  | some (.clause single), ⟨criteria, hleaves, hclause⟩ =>
    rw [hleaves] at hplain
    have hblocks := (Criteria.clause_of_isPlain (hplain criteria (by simp)) hclause).2.blocks
    rw [hfew (by simp [hleaves]), hleaves]
    simpa [Member.toQuery, DocumentQuery.blocks, hblocks] using hclause
  | some (.query joined), ⟨_, hblocks⟩ => simpa [Member.toQuery] using hblocks

/-- The blocks of some trees are those of the queries that they come down to. -/
theorem Tree.blocksOf_standsFor {founds : List (Option Member)}
    (h : List.Forall₂ (Tree.StandsFor schema) children founds)
    (hplain : ∀ criteria ∈ Tree.leavesOf children, criteria.isPlain = true) :
    List.Forall₂ (List.Forall₂ fun criteria clause => criteria.clause schema = .ok clause)
      (Tree.blocksOf schema.joinsLone children)
      ((founds.flatMap Option.toList).flatMap fun member => member.toQuery.blocks) := by
  induction h with
  | nil => exact .nil
  | cons hchild _ ih =>
    obtain ⟨hfirst, hrest⟩ := List.forall_mem_append.mp hplain
    rw [Tree.blocksOf, List.flatMap_cons, List.flatMap_append]
    exact List.rel_append (hchild.blocks hfirst) (ih hrest)

/-- Trees come down to clauses when each of them has one comparison at most, and the clauses are those of
the comparisons. -/
theorem Tree.clauses?_standsFor {founds : List (Option Member)}
    (h : List.Forall₂ (Tree.StandsFor schema) children founds) :
    (Tree.areLone children = true ∧ ∃ clauses,
        Member.clauses? (founds.flatMap Option.toList) = some clauses ∧
        List.Forall₂ (fun criteria clause => criteria.clause schema = .ok clause)
          (Tree.leavesOf children) clauses) ∨
      (Tree.areLone children = false ∧ Member.clauses? (founds.flatMap Option.toList) = none) := by
  induction h with
  | nil => exact Or.inl ⟨rfl, [], rfl, .nil⟩
  | @cons child found children founds hchild _ ih =>
    match found, hchild with
    | none, hleaves =>
      have hleaves : child.leaves = [] := hleaves
      simpa [areLone, leavesOf, hleaves] using ih
    | some (.clause single), ⟨criteria, hleaves, hclause⟩ =>
      rcases ih with ⟨hlone, clauses, hclauses, hall⟩ | ⟨hlone, hclauses⟩
      · refine Or.inl ⟨?_, single :: clauses, ?_, ?_⟩
        · simpa [areLone, hleaves] using hlone
        · simp [Member.clauses?, hclauses]
        · rw [leavesOf, hleaves]
          exact .cons hclause hall
      · refine Or.inr ⟨?_, ?_⟩
        · simpa [areLone, hleaves] using hlone
        · simp [Member.clauses?, hclauses]
    | some (.query joined), ⟨hmany, _⟩ =>
      refine Or.inr ⟨?_, rfl⟩
      have hnot : ¬child.leaves.length ≤ 1 := by omega
      simp [areLone, hnot]

/-- Trees have at least as many comparisons as members. -/
theorem Tree.length_le_standsFor {founds : List (Option Member)}
    (h : List.Forall₂ (Tree.StandsFor schema) children founds) :
    (founds.flatMap Option.toList).length ≤ (Tree.leavesOf children).length := by
  induction h with
  | nil => simp
  | @cons child found children founds hchild _ ih =>
    have hone : found.toList.length ≤ child.leaves.length := by
      match found, hchild with
      | none, _ => simp
      | some (.clause single), ⟨criteria, hleaves, _⟩ => simp [hleaves]
      | some (.query joined), ⟨hmany, _⟩ => simp only [Option.toList_some, List.length_singleton]; omega
    rw [List.flatMap_cons, leavesOf, List.length_append, List.length_append]
    omega

/-- Comparing clauses under one condition on the elements of a list above their fields are one block. -/
theorem DocumentQuery.blocks_elementMatch {root : String} {clauses : List FieldClause}
    (hcompares : ∀ clause ∈ clauses, clause.Compares)
    (habove : ∀ clause ∈ clauses, root ∈ Dotted.ancestors clause.path) (connective : Connective) :
    (DocumentQuery.fields [.mk root (.elementMatch (combine connective
      (clauses.map fun clause => .fields [clause.seenFrom root])))]).blocks = [clauses] := by
  have hself : clauses.flatMap (fun clause => FieldClause.allFrom (root ++ ".")
      [clause.seenFrom root]) = clauses := by
    refine (List.flatMap_congr fun clause hclause => ?_).trans (List.flatMap_singleton' clauses)
    rw [FieldClause.allFrom_seenFrom (habove clause hclause), (hcompares clause hclause).leaves]
  rw [blocks, FieldClause.blocks, clausesFrom_combine, List.flatMap_map]
  simp only [clausesFrom, hself, FieldClause.blocks]

/-- The clauses of plain comparisons compare the attributes of those. -/
theorem Criteria.clauses_of_isPlain {leaves : List Criteria} {clauses : List FieldClause}
    (h : List.Forall₂ (fun criteria clause => criteria.clause schema = .ok clause) leaves clauses)
    (hplain : ∀ criteria ∈ leaves, criteria.isPlain = true) :
    clauses.map FieldClause.path = leaves.map Criteria.path ∧
      ∀ clause ∈ clauses, clause.Compares := by
  induction h with
  | nil => simp
  | cons hfirst _ ih =>
    obtain ⟨hone, hrest⟩ := List.forall_mem_cons.mp hplain
    obtain ⟨hpath, hcompares⟩ := clause_of_isPlain hone hfirst
    obtain ⟨hpaths, hall⟩ := ih hrest
    exact ⟨by rw [List.map_cons, List.map_cons, hpath, hpaths],
      List.forall_mem_cons.mpr ⟨hcompares, hall⟩⟩

/-- A group that comes down to several members joined stands for their query. -/
theorem Tree.standsFor_group (connective : Connective) {founds : List (Option Member)}
    (h : List.Forall₂ (Tree.StandsFor schema) children founds)
    (hplain : ∀ criteria ∈ Tree.leavesOf children, criteria.isPlain = true)
    (hmany : 2 ≤ (founds.flatMap Option.toList).length) :
    (Tree.group connective children).StandsFor schema
      (some (.query (resolveGroup connective (founds.flatMap Option.toList) schema))) := by
  refine ⟨hmany.trans (Tree.length_le_standsFor h), ?_⟩
  have hseparate : List.Forall₂
      (List.Forall₂ fun criteria clause => criteria.clause schema = .ok clause)
      (Tree.blocksOf schema.joinsLone children)
      (DocumentQuery.combine connective
        ((founds.flatMap Option.toList).map Member.toQuery)).blocks := by
    rw [DocumentQuery.blocks_combine, List.flatMap_map]
    exact Tree.blocksOf_standsFor h hplain
  rw [Tree.blocks, resolveGroup]
  -- The members are clauses exactly when the items have one comparison each at most, so that the query
  -- looks for a list where the tree does.
  rcases Tree.clauses?_standsFor h with ⟨hlone, clauses, hclauses, hall⟩ | ⟨hlone, hclauses⟩
  · obtain ⟨hpaths, hcompares⟩ := Criteria.clauses_of_isPlain hall hplain
    cases hroot : schema.groupingRoot? .array (clauses.map FieldClause.path) with
    | none =>
      rw [hpaths] at hroot
      simpa [hclauses, hpaths, Schema.joinsLone, hlone, hroot] using hseparate
    | some root =>
      have habove := List.forall_mem_map.mp (Schema.groupingRoot?_mem_ancestors hroot)
      have hblocks := DocumentQuery.blocks_elementMatch hcompares habove connective
      rw [hpaths] at hroot
      simp only [hclauses, hpaths, Schema.joinsLone, hlone, hroot, Option.isSome_some, Bool.and_self,
        if_true, hblocks]
      exact .cons hall .nil
  · simpa [hclauses, Schema.joinsLone, hlone] using hseparate

/-- A group around a single tree stands for the same. -/
theorem Tree.standsFor_single (connective : Connective) {found : Option Member}
    (h : tree.StandsFor schema found) : (Tree.group connective [tree]).StandsFor schema found := by
  have hleaves : (Tree.group connective [tree]).leaves = tree.leaves := by
    rw [Tree.leaves, Tree.leavesOf, Tree.leavesOf, List.append_nil]
  match found, h with
  | none, h => exact hleaves.trans h
  | some (.clause single), ⟨criteria, hone, hclause⟩ => exact ⟨criteria, hleaves.trans hone, hclause⟩
  | some (.query joined), ⟨hmany, hblocks⟩ =>
    have hnot : ¬tree.leaves.length ≤ 1 := by omega
    have hpart : schema.joinsLone [tree] = false := by
      simp [Schema.joinsLone, Tree.areLone, hnot]
    refine ⟨hleaves ▸ hmany, ?_⟩
    rw [Tree.blocks, hpart]
    simpa [Tree.blocksOf] using hblocks

mutual

/-- A tree of plain comparisons stands for the member that it comes down to. -/
theorem Tree.standsFor_of_member? : (tree : Tree) →
    (∀ criteria ∈ tree.leaves, criteria.isPlain = true) → {found : Option Member} →
    tree.member? schema = .ok found → tree.StandsFor schema found
  | .leaf criteria, _, found, h => by
    rw [Tree.member?] at h
    obtain ⟨clause, hclause, rfl⟩ := Outcome.map_eq_ok_iff.mp h
    exact ⟨criteria, rfl, hclause⟩
  | .group _ [], _, found, h => by
    obtain rfl : none = found := Except.ok.inj h
    rfl
  | .group connective [child], hplain, found, h => by
    rw [Tree.member?] at h
    have hleaves : (Tree.group connective [child]).leaves = child.leaves := by
      rw [Tree.leaves, Tree.leavesOf, Tree.leavesOf, List.append_nil]
    rw [hleaves] at hplain
    exact Tree.standsFor_single connective (Tree.standsFor_of_member? child hplain h)
  | .group connective (first :: second :: rest), hplain, found, h => by
    rw [Tree.member?] at h
    obtain ⟨members, hmembers, h⟩ := Outcome.bind_eq_ok_iff.mp h
    obtain ⟨founds, hfounds, rfl⟩ :=
      Tree.standsFor_of_members (first :: second :: rest) hplain hmembers
    split at h
    case isTrue => simp at h
    case isFalse hmany =>
      obtain rfl := Except.ok.inj h
      exact Tree.standsFor_group connective hfounds hplain (by omega)

/-- Trees of plain comparisons stand for the members that they come down to. -/
theorem Tree.standsFor_of_members : (trees : List Tree) →
    (∀ criteria ∈ Tree.leavesOf trees, criteria.isPlain = true) → {members : List Member} →
    Tree.members schema trees = .ok members →
    ∃ founds, List.Forall₂ (Tree.StandsFor schema) trees founds ∧
      members = founds.flatMap Option.toList
  | [], _, members, h => by
    obtain rfl : [] = members := Except.ok.inj h
    exact ⟨[], .nil, rfl⟩
  | tree :: trees, hplain, members, h => by
    obtain ⟨hfirst, hrest⟩ := List.forall_mem_append.mp hplain
    rw [Tree.members] at h
    obtain ⟨found, hfound, h⟩ := Outcome.bind_eq_ok_iff.mp h
    obtain ⟨others, hothers, h⟩ := Outcome.bind_eq_ok_iff.mp h
    obtain rfl := Except.ok.inj h
    obtain ⟨founds, hfounds, rfl⟩ := Tree.standsFor_of_members trees hrest hothers
    exact ⟨found :: founds, .cons (Tree.standsFor_of_member? tree hfirst hfound) hfounds, rfl⟩

end

namespace Compiler

variable {compiler : Compiler} {rules : List Rule} {document : DocumentQuery}

/-- Whether a clause is that of a criteria with converted literals. -/
def IsClauseOf (compiler : Compiler) (criteria : Criteria) (clause : FieldClause) : Prop :=
  (criteria.converted compiler.schema compiler.settings false).clause compiler.schema = .ok clause

/-- The blocks of a document query are those of the tree of the list. -/
theorem blocks_documentQuery
    (hplain : ∀ criteria, Rule.criteria criteria ∈ rules → criteria.isPlain = true)
    (htree : Tree.ofRules rules = .ok tree) (h : compiler.documentQuery rules = .ok document) :
    List.Forall₂ (List.Forall₂ compiler.IsClauseOf) (tree.blocks compiler.schema.joinsLone)
      document.blocks := by
  have hvalid := validate_of_documentQuery ⟨document, h⟩
  have horder := checkOrder_of_validate (validate_convertedRules compiler.settings false hvalid)
  have hconverted := Tree.ofRules_convertedRules rules compiler.schema compiler.settings false
  rw [htree] at hconverted
  have hleaves : ∀ criteria ∈ (tree.map fun criteria =>
      criteria.converted compiler.schema compiler.settings false).leaves, criteria.isPlain = true := by
    refine Tree.forall_mem_leaves_map (checkOrder_of_validate hvalid) htree
      fun criteria hcriteria => ?_
    rw [Criteria.isPlain_converted]
    exact hplain criteria hcriteria
  obtain ⟨item, _, hrules, hitem⟩ := exists_item_of_ofRules horder hconverted
  have hclauses := haveClauses_of_validate hvalid
  rw [documentQuery_eq_ofRules hvalid] at h
  rw [← hrules] at h hclauses
  rw [DocumentQuery.ofRules_item hclauses,
    ((Item.hasTree_of_tree item hitem).member?_eq hclauses).1] at h
  obtain ⟨found, hfound, rfl⟩ := Outcome.map_eq_ok_iff.mp h
  have hblocks := (Tree.standsFor_of_member? _ hleaves hfound).blocks hleaves
  rw [Tree.forall₂_blocks_map (compiler.schema.joinsLone_mapAll fun criteria =>
    criteria.path_converted _ _ _)] at hblocks
  cases found with
  | none => exact hblocks
  | some member =>
    rw [Option.toList_some, List.flatMap_singleton] at hblocks
    exact hblocks

end Compiler

end FilterRules
