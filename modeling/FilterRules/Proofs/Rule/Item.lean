import FilterRules.Proofs.Rule.Grammar

/-!
# Items

The parts of a rule list as data: an item is a criteria or a group, and a group that is not empty
holds items with a connective between each two of them. Every part that the grammar derives is
written by such data, so that what a list means can be said by recursion over its items.
-/

namespace FilterRules

mutual

/-- An item of a group, or a group on top of a list. -/
inductive Item where
  /-- A comparison. -/
  | criteria (criteria : Criteria)
  /-- A group without items. -/
  | empty
  /-- A group with items, and the connective in front of them if there is one. -/
  | group (lead : Option Connective) (items : Items)

/-- The items of a group. -/
inductive Items where
  /-- The last item. -/
  | single (item : Item)
  /-- An item, the connective behind it, and further items. -/
  | joined (item : Item) (connective : Connective) (others : Items)

end

/-- Whether an item is a group. -/
def Item.isGroup : Item → Bool
  | .criteria _ => false
  | .empty => true
  | .group _ _ => true

mutual

/-- The rules of an item. -/
def Item.rules : Item → List Rule
  | .criteria criteria => [.criteria criteria]
  | .empty => [.separator .opening, .separator .closing]
  | .group lead items =>
    .separator .opening :: (lead.toList.map .logical ++ items.rules ++ [.separator .closing])

/-- The rules of the items of a group. -/
def Items.rules : Items → List Rule
  | .single item => item.rules
  | .joined item connective others => item.rules ++ .logical connective :: others.rules

end

/-- The connectives between the items of a group. -/
def Items.connectives : Items → List Connective
  | .single _ => []
  | .joined _ connective others => connective :: others.connectives

/-- A rule with another comparison, if it is one. -/
def Rule.map (change : Criteria → Criteria) : Rule → Rule
  | .separator mark => .separator mark
  | .logical connective => .logical connective
  | .criteria single => .criteria (change single)

/-- Two changes of a comparison are one. -/
theorem Rule.map_comp_map (second first : Criteria → Criteria) :
    Rule.map second ∘ Rule.map first = Rule.map (second ∘ first) := by
  funext rule
  cases rule <;> rfl

/-- Changes that agree on the comparisons of a list change it alike. -/
theorem Rule.map_congr {first second : Criteria → Criteria} {rules : List Rule}
    (h : ∀ single, Rule.criteria single ∈ rules → first single = second single) :
    rules.map (Rule.map first) = rules.map (Rule.map second) := by
  refine List.map_congr_left fun rule hrule => ?_
  cases rule with
  | separator mark => rfl
  | logical connective => rfl
  | criteria single => rw [Rule.map, Rule.map, h single hrule]

/-- The comparison that a rule is, if it is one. -/
def Rule.criteria? : Rule → Option Criteria
  | .separator _ => none
  | .logical _ => none
  | .criteria single => some single

/-- The comparisons of a list, in order. -/
def Rule.criteriaOf (rules : List Rule) : List Criteria := rules.filterMap Rule.criteria?

/-- A comparison of a list is one of its rules. -/
theorem Rule.mem_criteriaOf {rules : List Rule} {single : Criteria} :
    single ∈ criteriaOf rules ↔ Rule.criteria single ∈ rules := by
  rw [criteriaOf, List.mem_filterMap]
  constructor
  · rintro ⟨rule, hrule, hsingle⟩
    cases rule with
    | separator mark => simp [criteria?] at hsingle
    | logical connective => simp [criteria?] at hsingle
    | criteria found => rwa [← Option.some.inj hsingle]
  · intro hsingle
    exact ⟨.criteria single, hsingle, rfl⟩

/-- The comparisons of a group are those of its items. -/
theorem Rule.criteriaOf_group (lead : Option Connective) (rules : List Rule) :
    criteriaOf (.separator .opening :: (lead.toList.map .logical ++ rules ++ [.separator .closing])) =
      criteriaOf rules := by
  cases lead <;> simp [criteriaOf, List.filterMap_cons, criteria?]

/-- The comparisons on both sides of a connective. -/
theorem Rule.criteriaOf_join (front back : List Rule) (connective : Connective) :
    criteriaOf (front ++ .logical connective :: back) = criteriaOf front ++ criteriaOf back := by
  simp [criteriaOf, List.filterMap_cons, criteria?]

mutual

/-- An item with other comparisons. -/
def Item.map (change : Criteria → Criteria) : Item → Item
  | .criteria criteria => .criteria (change criteria)
  | .empty => .empty
  | .group lead items => .group lead (items.map change)

/-- Items with other comparisons. -/
def Items.map (change : Criteria → Criteria) : Items → Items
  | .single item => .single (item.map change)
  | .joined item connective others => .joined (item.map change) connective (others.map change)

end

mutual

/-- The rules of an item change where its comparisons do. -/
theorem Item.rules_map (change : Criteria → Criteria) :
    (item : Item) → (item.map change).rules = item.rules.map (Rule.map change)
  | .criteria criteria => rfl
  | .empty => rfl
  | .group lead items => by
    have hlead : (lead.toList.map Rule.logical).map (Rule.map change) =
        lead.toList.map Rule.logical := by
      cases lead <;> rfl
    have hitems := Items.rules_map change items
    simp only [Item.map, Item.rules, List.map_cons, List.map_append, hlead, hitems]
    rfl

/-- The rules of items change where their comparisons do. -/
theorem Items.rules_map (change : Criteria → Criteria) :
    (items : Items) → (items.map change).rules = items.rules.map (Rule.map change)
  | .single item => Item.rules_map change item
  | .joined item connective others => by
    have hitem := Item.rules_map change item
    have hothers := Items.rules_map change others
    simp [Items.map, Items.rules, Rule.map, hitem, hothers]

end

/-- Changed comparisons leave a group a group. -/
@[simp] theorem Item.isGroup_map (change : Criteria → Criteria) (item : Item) :
    (item.map change).isGroup = item.isGroup := by
  cases item <;> rfl

/-- Changed comparisons leave the connectives between items as they are. -/
@[simp] theorem Items.connectives_map (change : Criteria → Criteria) :
    (items : Items) → (items.map change).connectives = items.connectives
  | .single item => rfl
  | .joined item connective others => by
    simp [Items.map, Items.connectives, Items.connectives_map change others]

namespace Items

/-- The rules of the items of a group stand among the rules of the group. -/
theorem infix_group (lead : Option Connective) (items : Items) :
    items.rules <:+: (Item.group lead items).rules :=
  ⟨.separator .opening :: lead.toList.map .logical, [.separator .closing], by simp [Item.rules]⟩

/-- The rules of the first item stand among the rules of the items. -/
theorem infix_first (item : Item) (connective : Connective) (others : Items) :
    item.rules <:+: (joined item connective others).rules :=
  (List.prefix_append _ _).isInfix

/-- The rules of the other items stand among the rules of the items. -/
theorem infix_others (item : Item) (connective : Connective) (others : Items) :
    others.rules <:+: (joined item connective others).rules :=
  (List.suffix_append_of_suffix (List.suffix_cons _ _)).isInfix

end Items

/-- The rules of several groups. -/
def Item.rulesOf (groups : List Item) : List Rule := groups.flatMap Item.rules

/-- The rules of one group. -/
@[simp] theorem Item.rulesOf_single {item : Item} : Item.rulesOf [item] = item.rules := by
  simp [Item.rulesOf]

/-- The rules of groups change where their comparisons do. -/
theorem Item.rulesOf_map (change : Criteria → Criteria) (groups : List Item) :
    Item.rulesOf (groups.map (Item.map change)) = (Item.rulesOf groups).map (Rule.map change) := by
  simp [Item.rulesOf, List.flatMap_map, List.map_flatMap, Item.rules_map]

/-- A part of each category as data. -/
def Category.Written : Category → List Rule → Prop
  | .top, rules => ∃ groups : List Item, (∀ group ∈ groups, group.isGroup) ∧
      Item.rulesOf groups = rules
  | .group, rules => ∃ group : Item, group.isGroup ∧ group.rules = rules
  | .body, rules => ∃ group : Item, group.isGroup ∧
      group.rules = .separator .opening :: (rules ++ [.separator .closing])
  | .items, rules => ∃ items : Items, items.rules = rules
  | .item, rules => ∃ item : Item, item.rules = rules

/-- The grammar derives nothing but what items write. -/
theorem written_of_derives {category : Category} {rules : List Rule} (h : Derives category rules) :
    category.Written rules := by
  induction h with
  | noGroups => exact ⟨[], by simp, rfl⟩
  | groups _ _ ihfirst ihrest =>
    obtain ⟨group, hgroup, rfl⟩ := ihfirst
    obtain ⟨groups, hgroups, rfl⟩ := ihrest
    exact ⟨group :: groups, by simpa using ⟨hgroup, hgroups⟩, rfl⟩
  | group _ ih => exact ih
  | emptyBody => exact ⟨.empty, rfl, rfl⟩
  | plainBody _ ih =>
    obtain ⟨items, rfl⟩ := ih
    exact ⟨.group none items, rfl, rfl⟩
  | ledBody lead _ ih =>
    obtain ⟨items, rfl⟩ := ih
    exact ⟨.group (some lead) items, rfl, rfl⟩
  | single _ ih =>
    obtain ⟨item, rfl⟩ := ih
    exact ⟨.single item, rfl⟩
  | joined _ connective _ ihitem ihitems =>
    obtain ⟨item, rfl⟩ := ihitem
    obtain ⟨others, rfl⟩ := ihitems
    exact ⟨.joined item connective others, rfl⟩
  | criteria criteria => exact ⟨.criteria criteria, rfl⟩
  | nested _ ih =>
    obtain ⟨group, _, hrules⟩ := ih
    exact ⟨group, hrules⟩

/-- A list that the order check accepts is written by groups. -/
theorem exists_groups_of_checkOrder {rules : List Rule} (h : checkOrder rules = .ok ()) :
    ∃ groups : List Item, (∀ group ∈ groups, group.isGroup) ∧ Item.rulesOf groups = rules :=
  written_of_derives (derives_of_checkOrder h)

/-- The order check does not look into a comparison. -/
theorem Marker.run_map (change : Criteria → Criteria) {index : Nat} {stack : List Marker}
    {rules : List Rule} :
    Marker.run index stack (rules.map (Rule.map change)) = Marker.run index stack rules := by
  induction rules generalizing index stack with
  | nil => rfl
  | cons rule rules ih =>
    have hstep : Marker.step stack (rule.map change) = Marker.step stack rule := by
      cases rule <;> rfl
    simp only [List.map_cons, Marker.run, hstep, ih]

/-- A list with other comparisons is in order when the list is. -/
theorem checkOrder_map (change : Criteria → Criteria) (rules : List Rule) :
    checkOrder (rules.map (Rule.map change)) = checkOrder rules := by
  rw [checkOrder, checkOrder, Marker.run_map]

/-- A comparison of a list with other comparisons comes from one of the list. -/
theorem Rule.criteria_mem_map {change : Criteria → Criteria} {rules : List Rule} {single : Criteria} :
    Rule.criteria single ∈ rules.map (Rule.map change) ↔
      ∃ before, Rule.criteria before ∈ rules ∧ change before = single := by
  rw [List.mem_map]
  constructor
  · rintro ⟨rule, hrule, hmap⟩
    cases rule with
    | separator mark => simp [Rule.map] at hmap
    | logical connective => simp [Rule.map] at hmap
    | criteria before => exact ⟨before, hrule, Rule.criteria.inj hmap⟩
  · rintro ⟨before, hbefore, rfl⟩
    exact ⟨.criteria before, hbefore, rfl⟩

/-- An item is derived as one when it is derived as a group in case it is one. -/
theorem Item.derives_of_group {item : Item} (h : item.isGroup → Derives .group item.rules) :
    Derives .item item.rules := by
  cases item with
  | criteria criteria => exact .criteria criteria
  | empty => exact .nested (h rfl)
  | group lead items => exact .nested (h rfl)

mutual

/-- The grammar derives what a group writes. -/
theorem Item.derives_group : (item : Item) → item.isGroup → Derives .group item.rules
  | .criteria criteria, h => by simp [Item.isGroup] at h
  | .empty, _ => .group .emptyBody
  | .group none items, _ => .group (.plainBody (Items.derives items))
  | .group (some lead) items, _ => .group (.ledBody lead (Items.derives items))

/-- The grammar derives what the items of a group write. -/
theorem Items.derives : (items : Items) → Derives .items items.rules
  | .single item => .single (Item.derives_of_group (Item.derives_group item))
  | .joined item connective others =>
    .joined (Item.derives_of_group (Item.derives_group item)) connective (Items.derives others)

end

/-- The grammar derives what an item writes. -/
theorem Item.derives (item : Item) : Derives .item item.rules :=
  Item.derives_of_group item.derives_group

/-- A group alone is a list in order. -/
theorem Item.checkOrder_rules {item : Item} (hgroup : item.isGroup) :
    checkOrder item.rules = .ok () := by
  have htop : Derives .top (item.rules ++ []) := .groups (item.derives_group hgroup) .noGroups
  rw [List.append_nil] at htop
  exact checkOrder_eq_ok_iff.mpr (Marker.accepts_of_derives htop)

end FilterRules
