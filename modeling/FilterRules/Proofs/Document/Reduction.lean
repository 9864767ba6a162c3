import FilterRules.Proofs.Document.Outcome
import FilterRules.Proofs.Rule.Building

/-!
# Reduction follows the tree

What a rule list comes down to can be told by recursion over its tree, without slots and without a
table. The tree of an item comes down to what the item does: the tree is gone through from the first
child to the last and the items from the last one to the first, but a list with a tree has no other
fault than a group with too few members.
-/

namespace FilterRules

mutual

/-- The member that a tree comes down to, if it comes down to anything. -/
def Tree.member? (schema : Schema) : Tree → Except CompileError (Option Member)
  | .leaf criteria => (criteria.clause schema).map fun clause => some (.clause clause)
  | .group _ [] => .ok none
  | .group _ [child] => child.member? schema
  | .group connective (first :: second :: rest) => do
    let members ← Tree.members schema (first :: second :: rest)
    if members.length < 2 then .error (.emission .minimumCriteria)
    else .ok (some (.query (resolveGroup connective members schema)))

/-- The members that trees come down to, without the trees that come down to nothing. -/
def Tree.members (schema : Schema) : List Tree → Except CompileError (List Member)
  | [] => .ok []
  | tree :: trees => do
    let member ← tree.member? schema
    let others ← Tree.members schema trees
    return member.toList ++ others

end

/-- The members of one tree. -/
theorem Tree.members_single (schema : Schema) (tree : Tree) :
    Tree.members schema [tree] = (tree.member? schema).map Option.toList := by
  rw [Tree.members]
  cases tree.member? schema <;> simp [Tree.members, Except.map]

/-- A group with several items comes down to its members joined, if there are two of them. -/
theorem Tree.member?_group (schema : Schema) (connective : Connective) (tree : Tree)
    {trees : List Tree} (hne : trees ≠ []) :
    (Tree.group connective (tree :: trees)).member? schema = (do
      let members ← Tree.members schema (tree :: trees)
      if members.length < 2 then .error (.emission .minimumCriteria)
      else .ok (some (.query (resolveGroup connective members schema)))) := by
  cases trees with
  | nil => exact absurd rfl hne
  | cons second rest => rw [Tree.member?]

mutual

/-- An item whose comparisons have clauses comes down to the member of its tree. The only fault is a
group with too few members. -/
theorem Item.HasTree.member?_eq {schema : Schema} : {item : Item} → {tree : Tree} →
    item.HasTree tree → Rule.HaveClauses schema item.rules →
    item.member? schema = tree.member? schema ∧
      ∀ error, tree.member? schema = .error error → error = .emission .minimumCriteria
  | .criteria criteria, _, .criteria _, hclauses => by
    obtain ⟨clause, hclause⟩ := hclauses criteria (by simp [Item.rules])
    rw [Item.member?, Tree.member?]
    exact ⟨rfl, by simp [hclause, Except.map]⟩
  | .empty, _, .empty, _ => by
    rw [Item.member?, Tree.member?]
    exact ⟨rfl, by simp⟩
  | .group _ (.single item), _, @Item.HasTree.lone _ tree hitem, hclauses => by
    obtain ⟨hsame, hfault⟩ := hitem.member?_eq
      (hclauses.mono (Items.infix_group none (.single item)).subset)
    rw [Item.member?, Items.members, Tree.member?, hsame]
    refine ⟨?_, hfault⟩
    cases tree.member? schema with
    | error error => rfl
    | ok found => cases found <;> rfl
  | .group lead (.joined item connective others), _,
      @Item.HasTree.joined _ _ _ _ tree trees hlead hitem hothers, hclauses => by
    have hitems := Items.HaveTrees.joined hitem hothers
    obtain ⟨hsame, hfault⟩ := hitems.members_eq (hclauses.mono (Items.infix_group lead _).subset)
    have hagreed : Connective.agreed
        (lead.toList ++ (Items.joined item connective others).connectives) =
        .ok (some connective) := by
      refine Connective.agreed_eq_some ?_ (by simp [Items.connectives])
      simpa [or_imp, forall_and] using ⟨hlead, hitems.connectives⟩
    rw [Item.member?, hsame, Tree.member?_group schema connective tree hothers.ne_nil]
    cases hmembers : Tree.members schema (tree :: trees) with
    | error error => exact ⟨rfl, by simpa using hfault error hmembers⟩
    | ok members =>
      simp only [Outcome.ok_bind, hagreed, Member.joined, true_and]
      intro error herror
      split at herror
      · exact (Except.error.inj herror).symm
      · simp at herror

/-- Items whose comparisons have clauses come down to the members of their trees. -/
theorem Items.HaveTrees.members_eq {schema : Schema} : {items : Items} →
    {connective : Connective} → {trees : List Tree} → items.HaveTrees connective trees →
    Rule.HaveClauses schema items.rules →
    items.members schema = Tree.members schema trees ∧
      ∀ error, Tree.members schema trees = .error error → error = .emission .minimumCriteria
  | .single item, _, _, @Items.HaveTrees.single _ _ tree hitem, hclauses => by
    obtain ⟨hsame, hfault⟩ := hitem.member?_eq hclauses
    rw [Items.members, Tree.members_single, hsame]
    refine ⟨rfl, ?_⟩
    cases hmember : tree.member? schema with
    | error error => simpa [Except.map] using hfault error hmember
    | ok found => simp [Except.map]
  | .joined item connective others, _, _,
      @Items.HaveTrees.joined _ _ _ tree trees hitem hothers, hclauses => by
    obtain ⟨hfirst, hfault⟩ := hitem.member?_eq
      (hclauses.mono (Items.infix_first item connective others).subset)
    obtain ⟨hrest, hfaults⟩ := hothers.members_eq
      (hclauses.mono (Items.infix_others item connective others).subset)
    rw [Items.members, Tree.members, hfirst, hrest]
    cases hmember : tree.member? schema with
    | error error =>
      obtain rfl := hfault error hmember
      cases hmembers : Tree.members schema trees with
      | error other =>
        obtain rfl := hfaults other hmembers
        simp
      | ok members => simp
    | ok found =>
      cases hmembers : Tree.members schema trees with
      | error other =>
        obtain rfl := hfaults other hmembers
        simp
      | ok members => simp

end

/-- What pieces come down to. The only fault is a group with too few members. -/
def Template.ComesTo (schema : Schema) (pieces : List Piece) :
    Except CompileError (Option Member) → Prop
  | .ok found => Leads schema pieces (found.map Piece.member).toList
  | .error error => error = .emission .minimumCriteria ∧ Fails schema pieces error

/-- The pieces of an item come down to the member of its tree. -/
theorem Item.HasTree.comesTo {schema : Schema} {pieces : List Piece} {item : Item} {tree : Tree}
    (h : item.HasTree tree) (hpieces : List.Forall₂ (Rule.Laid schema) item.rules pieces) :
    Template.ComesTo schema pieces (tree.member? schema) := by
  obtain ⟨hsame, hfault⟩ := h.member?_eq (Rule.haveClauses_of_pieces hpieces)
  have hreaches := item.reaches hpieces
  rw [hsame] at hreaches
  cases hmember : tree.member? schema with
  | error error =>
    rw [hmember] at hreaches
    exact ⟨hfault error hmember, hreaches⟩
  | ok found =>
    rw [hmember] at hreaches
    exact hreaches

/-- A template that shows nothing or one member holds its query. -/
theorem Template.Shows.result {template : Template} {found : Option Member}
    (h : template.Shows (found.map Piece.member).toList) :
    template.result = .ok (found.elim .matchAll Member.toQuery) := by
  cases found with
  | none => exact (show template.Shows ([].map Piece.member) from h).result_members
  | some member => exact (show template.Shows ([member].map Piece.member) from h).result_members

/-- The query of a list that the order check accepts, that has a tree and whose comparisons have
clauses is what the tree comes down to, and every document's query if that is nothing. -/
theorem DocumentQuery.ofRules_eq_member {rules : List Rule} {tree : Tree} {schema : Schema}
    (horder : checkOrder rules = .ok ()) (htree : Tree.ofRules rules = .ok tree)
    (hclauses : ∀ criteria, Rule.criteria criteria ∈ rules →
      ∃ clause, criteria.clause schema = .ok clause) :
    DocumentQuery.ofRules rules schema =
      (tree.member? schema).map fun found => found.elim .matchAll Member.toQuery := by
  obtain ⟨item, _, rfl, hitem⟩ := exists_item_of_ofRules horder htree
  obtain ⟨pieces, hpieces⟩ := Rule.exists_pieces hclauses
  have hcomes := (Item.hasTree_of_tree item hitem).comesTo hpieces
  have hempty : Template.Shows ⟨[], []⟩ [] := ⟨.nil, by simp [Slot.indices]⟩
  obtain ⟨template, htemplate, hshows⟩ := Template.exists_layOut hpieces hempty
  rw [DocumentQuery.ofRules, Template.ofRules, htemplate, Outcome.ok_bind]
  cases hmember : tree.member? schema with
  | error error =>
    rw [hmember] at hcomes
    rw [hcomes.2 [] [] (by simp) template (by simpa using hshows)]
    rfl
  | ok found =>
    rw [hmember] at hcomes
    obtain ⟨reached, hreached, hreduce⟩ := hcomes [] [] (by simp) template (by simpa using hshows)
    have hself : reached.reduce schema = .ok reached :=
      Template.reduce_eq_self hreached (by cases found <;> simp)
    rw [hreduce, hself, Outcome.ok_bind]
    exact Template.Shows.result (by simpa using hreached)

/-- Two comparisons below one list, beside an empty group. -/
theorem DocumentQuery.ofRules_eq_member_prices :
    let schema : Schema := ⟨[("type", .ofStrings), ("prices", .nested)]⟩
    let book : Criteria := ⟨"type", .equal, .value (.text "book"), false⟩
    let listed : Criteria := ⟨"prices.kind", .equal, .value (.text "list"), false⟩
    let traded : Criteria := ⟨"prices.market", .equal, .value (.text "trade"), false⟩
    let rules : List Rule := [.separator .opening, .criteria book, .logical .or,
      .separator .opening, .criteria listed, .logical .and, .criteria traded, .separator .closing,
      .logical .or, .separator .opening, .separator .closing, .separator .closing]
    let tree : Tree := .group .or [.leaf book, .group .and [.leaf listed, .leaf traded],
      .group .and []]
    checkOrder rules = .ok () ∧ Tree.ofRules rules = .ok tree ∧
      (∀ criteria, Rule.criteria criteria ∈ rules →
        ∃ clause, criteria.clause schema = .ok clause) ∧
      DocumentQuery.ofRules rules schema = .ok (.or [
        .fields [.mk "type" (.compare .equal (.text "book"))],
        .fields [.mk "prices" (.elementMatch (.and [
          .fields [.mk "kind" (.compare .equal (.text "list"))],
          .fields [.mk "market" (.compare .equal (.text "trade"))]]))]]) := by
  intro schema book listed traded rules tree
  have horder : checkOrder rules = .ok () := rfl
  have htree : Tree.ofRules rules = .ok tree := rfl
  have hbook : book.clause schema = .ok (.mk "type" (.compare .equal (.text "book"))) := by cbv
  have hlisted : listed.clause schema =
      .ok (.mk "prices.kind" (.compare .equal (.text "list"))) := by cbv
  have htraded : traded.clause schema =
      .ok (.mk "prices.market" (.compare .equal (.text "trade"))) := by cbv
  have hclauses : ∀ criteria, Rule.criteria criteria ∈ rules →
      ∃ clause, criteria.clause schema = .ok clause := by
    simp [rules, hbook, hlisted, htraded]
  refine ⟨horder, htree, hclauses, ?_⟩
  rw [DocumentQuery.ofRules_eq_member horder htree hclauses]
  cbv

end FilterRules
