import FilterRules.Proofs.Rule.Building
import FilterRules.Proofs.Spec.Flattening

/-!
# The tree of named groups

When the rules of each named group make a group between two marks, the flattened list is that of a
group too: one whose items are the named groups, joined by `AND`. Its tree has the trees of the named
groups as children, in order.
-/

namespace FilterRules

/-- Items joined by `AND`. -/
def Items.conjoined (item : Item) : List Item → Items
  | [] => .single item
  | next :: others => .joined item .and (conjoined next others)

/-- A group of items joined by `AND`. -/
def Item.conjoined (item : Item) (others : List Item) : Item :=
  .group none (Items.conjoined item others)

namespace Items

/-- The rules of items joined by `AND`. -/
theorem rules_conjoined (item : Item) (others : List Item) :
    (conjoined item others).rules =
      [.logical .and].intercalate ((item :: others).map Item.rules) := by
  induction others generalizing item with
  | nil => rw [List.map_singleton, List.intercalate_singleton, conjoined, Items.rules]
  | cons next others ih => simp [conjoined, Items.rules, ih]

/-- Items joined by `AND` are those items. -/
theorem toList_conjoined (item : Item) (others : List Item) :
    (conjoined item others).toList = item :: others := by
  induction others generalizing item with
  | nil => rfl
  | cons next others ih => rw [conjoined, Items.toList, ih]

/-- The connectives between items joined by `AND`. -/
theorem connectives_conjoined (item : Item) (others : List Item) :
    (conjoined item others).connectives = others.map fun _ => .and := by
  induction others generalizing item with
  | nil => rfl
  | cons next others ih => rw [conjoined, Items.connectives, ih, List.map_cons]

end Items

/-- The tree of a group of items joined by `AND` has the trees of the items as children. -/
theorem Item.hasTree_conjoined_iff {item : Item} {others : List Item} {tree : Tree} :
    (conjoined item others).HasTree tree ↔
      ∃ trees, tree = .group .and trees ∧ List.Forall₂ Item.HasTree (item :: others) trees := by
  rw [conjoined, hasTree_group_iff, Items.toList_conjoined, Items.connectives_conjoined]
  constructor
  · rintro ⟨connective, trees, rfl, htrees, _, hsame, hnone⟩
    obtain rfl : connective = .and := by
      cases others with
      | nil => exact (hnone rfl).2
      | cons next others => exact (hsame .and (by simp)).symm
    exact ⟨trees, rfl, htrees⟩
  · rintro ⟨trees, rfl, htrees⟩
    exact ⟨.and, trees, rfl, htrees, by simp, by simp, by simp⟩

namespace RuleGroup

/-- A named group is read as an item that writes its typed rules between two marks. -/
structure ReadAs (named : RuleGroup) (item : Item) : Prop where
  /-- The item is a group. -/
  isGroup : item.isGroup
  /-- The rules of the item. -/
  rules : ∃ body, named.decoded = .ok body ∧ item.rules = Rule.enclosed body

variable {named : RuleGroup} {item : Item} {others : List Item} {child : Tree}
variable {groups : List RuleGroup}

/-- A named group that is read as an item stands in order. -/
theorem ReadAs.isOrdered (h : named.ReadAs item) : named.IsOrdered := by
  obtain ⟨body, hbody, hrules⟩ := h.rules
  have horder := Item.checkOrder_rules h.isGroup
  rw [hrules] at horder
  exact ⟨body, hbody, horder⟩

/-- The tree of a named group is that of the item that it is read as. -/
theorem ReadAs.tree_eq_ok_iff (h : named.ReadAs item) :
    named.tree = .ok child ↔ item.HasTree child := by
  obtain ⟨body, hbody, hrules⟩ := h.rules
  rw [tree_eq hbody, ← hrules, Tree.ofRules_item h.isGroup, Item.tree_eq_ok_iff]

/-- A named group in order that has a tree is read as an item. -/
theorem exists_readAs (hordered : named.IsOrdered) (htree : named.tree = .ok child) :
    ∃ item, named.ReadAs item := by
  obtain ⟨body, hbody, horder⟩ := hordered
  rw [tree_eq hbody] at htree
  obtain ⟨item, hgroup, hrules, _⟩ := exists_item_of_ofRules horder htree
  exact ⟨item, hgroup, body, hbody, hrules⟩

/-- Named groups in order that have trees are read as items. -/
theorem exists_items {trees : List Tree}
    (h : List.Forall₂ (fun named child => named.IsOrdered ∧ named.tree = .ok child) groups trees) :
    ∃ items, List.Forall₂ ReadAs groups items := by
  induction h with
  | nil => exact ⟨[], .nil⟩
  | cons hfirst _ ih =>
    obtain ⟨item, hread⟩ := exists_readAs hfirst.1 hfirst.2
    obtain ⟨items, hreads⟩ := ih
    exact ⟨item :: items, .cons hread hreads⟩

/-- The trees of named groups are those of the items that they are read as. -/
theorem forall₂_tree_iff {items : List Item} (hread : List.Forall₂ ReadAs groups items)
    {trees : List Tree} :
    List.Forall₂ (fun named child => named.tree = .ok child) groups trees ↔
      List.Forall₂ Item.HasTree items trees := by
  induction hread generalizing trees with
  | nil => simp
  | cons hfirst _ ih =>
    rw [List.forall₂_cons_left_iff, List.forall₂_cons_left_iff]
    simp only [hfirst.tree_eq_ok_iff, ih]

/-- Named groups that are read as items are decoded. -/
theorem exists_decoded {items : List Item} (hread : List.Forall₂ ReadAs groups items) :
    ∃ bodies, List.Forall₂ (fun named body => named.decoded = .ok body) groups bodies := by
  induction hread with
  | nil => exact ⟨[], .nil⟩
  | cons hfirst _ ih =>
    obtain ⟨body, hbody, _⟩ := hfirst.rules
    obtain ⟨bodies, hbodies⟩ := ih
    exact ⟨body :: bodies, .cons hbody hbodies⟩

/-- The items that named groups are read as write the typed rules of the groups. -/
theorem map_rules_of_readAs {items : List Item} {bodies : List (List Rule)}
    (hread : List.Forall₂ ReadAs groups items)
    (hbodies : List.Forall₂ (fun named body => named.decoded = .ok body) groups bodies) :
    items.map Item.rules = bodies.map Rule.enclosed := by
  induction hread generalizing bodies with
  | nil =>
    cases hbodies
    rfl
  | cons hfirst _ ih =>
    obtain ⟨body, hbody, hrules⟩ := hfirst.rules
    cases hbodies with
    | cons hdecoded hrest =>
      obtain rfl : body = _ := Except.ok.inj (hbody.symm.trans hdecoded)
      rw [List.map_cons, List.map_cons, hrules, ih hrest]

/-- Named groups that are read as items are flattened to the list of a group: that of the items,
joined by `AND`. -/
theorem decodeAll_flatten_readAs_iff (hread : List.Forall₂ ReadAs groups (item :: others))
    {rules : List Rule} :
    (∃ wire, RuleEntry.flatten (groups.map .group) = .ok wire ∧
        WireRule.decodeAll wire = .ok rules) ↔
      (∀ named ∈ groups, named.kind = groupKind) ∧ rules = (Item.conjoined item others).rules := by
  have hne : groups ≠ [] := by
    rintro rfl
    cases hread
  have hrules {bodies : List (List Rule)}
      (hbodies : List.Forall₂ (fun named body => named.decoded = .ok body) groups bodies) :
      Rule.enclosed (Rule.conjoined bodies) = (Item.conjoined item others).rules := by
    have hitems := Items.rules_conjoined item others
    rw [map_rules_of_readAs hread hbodies] at hitems
    simp only [Item.conjoined, Item.rules, hitems]
    rfl
  rw [RuleEntry.decodeAll_flatten_eq_ok_iff hne]
  refine and_congr_right fun _ => ?_
  constructor
  · rintro ⟨bodies, hbodies, rfl⟩
    exact hrules hbodies
  · rintro rfl
    obtain ⟨bodies, hbodies⟩ := exists_decoded hread
    exact ⟨bodies, hbodies, (hrules hbodies).symm⟩

/-- Named groups whose rules are well formed, each on its own, are flattened to a list in order, and
the tree of that list joins their trees by `AND`. -/
theorem flatten_compositional {trees : List Tree} (hne : groups ≠ [])
    (hkind : ∀ named ∈ groups, named.kind = groupKind)
    (halone : List.Forall₂ (fun named child => named.IsOrdered ∧ named.tree = .ok child)
      groups trees) :
    ∃ wire rules, RuleEntry.flatten (groups.map .group) = .ok wire ∧
      WireRule.decodeAll wire = .ok rules ∧ checkOrder rules = .ok () ∧
        Tree.ofRules rules = .ok (.group .and trees) := by
  obtain ⟨items, hread⟩ := exists_items halone
  have htrees : List.Forall₂ Item.HasTree items trees :=
    (forall₂_tree_iff hread).mp (halone.imp fun _ _ h => h.2)
  cases items with
  | nil =>
    cases hread
    exact absurd rfl hne
  | cons item others =>
    have hgroup : (Item.conjoined item others).isGroup := rfl
    have htree : (Item.conjoined item others).HasTree (.group .and trees) :=
      Item.hasTree_conjoined_iff.mpr ⟨trees, rfl, htrees⟩
    obtain ⟨wire, hflat, hdecode⟩ := (decodeAll_flatten_readAs_iff hread).mpr ⟨hkind, rfl⟩
    refine ⟨wire, _, hflat, hdecode, Item.checkOrder_rules hgroup, ?_⟩
    rw [Tree.ofRules_item hgroup, Item.tree_eq_ok_iff]
    exact htree

/-- A group with two comparisons beside one with an empty group inside. -/
theorem flatten_compositional_alternatives :
    let book : Criteria := ⟨"type", .equal, .value (.text "book"), false⟩
    let disc : Criteria := ⟨"type", .equal, .value (.text "disc"), false⟩
    let kinds := ofRules "kinds" [.criteria book, .logical .or, .criteria disc]
    let anything := ofRules "anything" [.separator .opening, .separator .closing]
    let trees : List Tree := [.group .or [.leaf book, .leaf disc], .group .and [.group .and []]]
    (∀ named ∈ [kinds, anything], named.kind = groupKind) ∧
      List.Forall₂ (fun named child => named.IsOrdered ∧ named.tree = .ok child)
        [kinds, anything] trees ∧
      ∃ wire rules, RuleEntry.flatten ([kinds, anything].map .group) = .ok wire ∧
        WireRule.decodeAll wire = .ok rules ∧ checkOrder rules = .ok () ∧
          Tree.ofRules rules = .ok (.group .and trees) := by
  intro book disc kinds anything trees
  have hkind : ∀ named ∈ [kinds, anything], named.kind = groupKind := by
    simp [kinds, anything, ofRules]
  have htype : Text.trimmed "type" = "type" := by rfl
  have hbook (index : Nat) : (WireRule.criteria book).decode index = .ok (.criteria book) :=
    WireRule.decode_criteria htype (by decide) rfl rfl
  have hdisc (index : Nat) : (WireRule.criteria disc).decode index = .ok (.criteria disc) :=
    WireRule.decode_criteria htype (by decide) rfl rfl
  have hkinds : kinds.decoded = .ok [.criteria book, .logical .or, .criteria disc] := by
    simp [kinds, ofRules, decoded, WireRule.decodeFrom, hbook, hdisc]
  have hanything : anything.decoded = .ok [.separator .opening, .separator .closing] := by
    simp [anything, ofRules, decoded, WireRule.decodeFrom]
  have halone : List.Forall₂ (fun named child => named.IsOrdered ∧ named.tree = .ok child)
      [kinds, anything] trees := by
    refine .cons ⟨(isOrdered_iff hkinds).mpr rfl, ?_⟩
      (.cons ⟨(isOrdered_iff hanything).mpr rfl, ?_⟩ .nil)
    · rw [tree_eq hkinds]
      rfl
    · rw [tree_eq hanything]
      rfl
  exact ⟨hkind, halone, flatten_compositional (by simp) hkind halone⟩

end RuleGroup

end FilterRules
