import FilterRules.Fault
import FilterRules.Proofs.Rule.Item
import Mathlib.Data.List.Infix

/-!
# The groups of a rule list

A rule list is read as groups one after the other, and every group, on top or inside another one, is
described by what stands directly in it: its connectives and its items. A group is at fault when both
connectives stand in it, or when it has a connective and fewer than two items that count. What counts
as an item is a parameter: any item, or an item with a criteria in it.
-/

namespace FilterRules

/-- Whether a rule is a comparison. -/
def Rule.isCriteria : Rule → Bool
  | .separator _ => false
  | .logical _ => false
  | .criteria _ => true

/-- A changed comparison is still one. -/
theorem Rule.isCriteria_comp_map (change : Criteria → Criteria) :
    Rule.isCriteria ∘ Rule.map change = Rule.isCriteria := by
  funext rule
  cases rule <;> rfl

/-- Whether an item is a criteria or has one inside. -/
def Item.hasCriteria (item : Item) : Bool := item.rules.any Rule.isCriteria

/-- The items of a group in a list. -/
def Items.toList : Items → List Item
  | .single item => [item]
  | .joined item _ others => item :: others.toList

/-- The comparisons of items are those of each of them. -/
theorem Items.criteriaOf_rules (items : Items) :
    Rule.criteriaOf items.rules = items.toList.flatMap fun item => Rule.criteriaOf item.rules := by
  induction items using Items.toList.induct with
  | case1 item => simp [Items.rules, Items.toList]
  | case2 item connective others ih =>
    rw [Items.rules, Rule.criteriaOf_join, ih, Items.toList, List.flatMap_cons]

/-- What stands directly in a group. -/
structure GroupContents where
  /-- The connectives, those in front of the first item included. -/
  connectives : List Connective
  /-- The items. -/
  items : List Item

mutual

/-- The contents of the groups of an item, of the item itself first if it is a group. -/
def Item.groups : Item → List GroupContents
  | .criteria _ => []
  | .empty => [⟨[], []⟩]
  | .group lead items => ⟨lead.toList ++ items.connectives, items.toList⟩ :: items.groups

/-- The contents of the groups of some items. -/
def Items.groups : Items → List GroupContents
  | .single item => item.groups
  | .joined item _ others => item.groups ++ others.groups

end

/-- The contents of the groups of several groups. -/
def Item.groupsOf (groups : List Item) : List GroupContents := groups.flatMap Item.groups

/-- Groups are a reading of the rule list that they write one after the other. -/
def Item.Read (groups : List Item) (rules : List Rule) : Prop :=
  (∀ group ∈ groups, group.isGroup) ∧ Item.rulesOf groups = rules

/-- Some group of a list is empty: an opening mark is directly followed by a closing one. -/
def HasEmptyGroup (rules : List Rule) : Prop :=
  [Rule.separator .opening, .separator .closing] <:+: rules

instance (rules : List Rule) : Decidable (HasEmptyGroup rules) :=
  inferInstanceAs (Decidable (_ <:+: rules))

/-- A mark is a mark before a change of comparisons too. -/
theorem Rule.map_eq_separator {change : Criteria → Criteria} {rule : Rule} {mark : Separator}
    (h : rule.map change = .separator mark) : rule = .separator mark := by
  cases rule with
  | separator found => exact h
  | logical connective => simp [Rule.map] at h
  | criteria criteria => simp [Rule.map] at h

/-- Changed comparisons leave the empty groups of a list. -/
theorem hasEmptyGroup_map (change : Criteria → Criteria) (rules : List Rule) :
    HasEmptyGroup (rules.map (Rule.map change)) ↔ HasEmptyGroup rules := by
  constructor
  · intro h
    obtain ⟨marks, hmarks, hmap⟩ := List.infix_map_iff.mp h
    obtain ⟨opening, rest, rfl, hopening, hrest⟩ := List.map_eq_cons_iff.mp hmap.symm
    obtain ⟨closing, last, rfl, hclosing, hlast⟩ := List.map_eq_cons_iff.mp hrest
    obtain rfl := List.map_eq_nil_iff.mp hlast
    rw [Rule.map_eq_separator hopening, Rule.map_eq_separator hclosing] at hmarks
    exact hmarks
  · intro h
    exact List.IsInfix.map (Rule.map change) h

namespace GroupContents

variable {counts : Item → Bool} {change : Criteria → Criteria}

/-- Both connectives stand directly in the group. -/
def IsMixed (group : GroupContents) : Prop := .and ∈ group.connectives ∧ .or ∈ group.connectives

/-- Only one connective stands in the group, if any, and it has two items that count to join. -/
def IsSound (counts : Item → Bool) (group : GroupContents) : Prop :=
  ¬ group.IsMixed ∧ (group.connectives ≠ [] → 2 ≤ group.items.countP counts)

/-- A fault that one of some groups accounts for. -/
inductive Fault (counts : Item → Bool) (groups : List GroupContents) : CompileError → Prop
  /-- Both connectives stand in a group. -/
  | mixed (place : Option Nat) {group : GroupContents} (hgroup : group ∈ groups)
      (hmixed : group.IsMixed) : Fault counts groups (.structural .mixedConnectives place)
  /-- A connective has fewer than two items to join. -/
  | few {group : GroupContents} (hgroup : group ∈ groups) (hne : group.connectives ≠ [])
      (hfew : group.items.countP counts < 2) : Fault counts groups (.emission .minimumCriteria)

/-- What accounts for a fault among some groups does so among more. -/
theorem Fault.mono {groups more : List GroupContents} {error : CompileError}
    (h : Fault counts groups error) (hsubset : groups ⊆ more) : Fault counts more error := by
  cases h with
  | mixed place hgroup hmixed => exact .mixed place (hsubset hgroup) hmixed
  | few hgroup hne hfew => exact .few (hsubset hgroup) hne hfew

/-- A group that accounts for a fault is not sound. -/
theorem Fault.exists_not_sound {groups : List GroupContents} {error : CompileError}
    (h : Fault counts groups error) : ∃ group ∈ groups, ¬ group.IsSound counts := by
  cases h with
  | mixed place hgroup hmixed => exact ⟨_, hgroup, fun hsound => hsound.1 hmixed⟩
  | few hgroup hne hfew =>
    refine ⟨_, hgroup, fun hsound => ?_⟩
    have hmany := hsound.2 hne
    omega

/-- Two different connectives in a group are both of them. -/
theorem isMixed_of_ne {group : GroupContents} {first second : Connective}
    (hfirst : first ∈ group.connectives) (hsecond : second ∈ group.connectives)
    (hne : first ≠ second) : group.IsMixed := by
  cases first <;> cases second <;> first | exact absurd rfl hne | exact ⟨‹_›, ‹_›⟩

/-- A group with one connective everywhere is not mixed. -/
theorem not_isMixed_of_forall {group : GroupContents} {connective : Connective}
    (h : ∀ found ∈ group.connectives, found = connective) : ¬ group.IsMixed := by
  rintro ⟨hand, hor⟩
  have hsame : Connective.and = .or := (h _ hand).trans (h _ hor).symm
  simp at hsame

/-- Contents with other comparisons. -/
def map (change : Criteria → Criteria) (group : GroupContents) : GroupContents :=
  ⟨group.connectives, group.items.map (Item.map change)⟩

/-- As many items count after a change of comparisons that does not decide what counts. -/
theorem countP_map (hcounts : ∀ item : Item, counts (item.map change) = counts item)
    (group : GroupContents) : (group.map change).items.countP counts = group.items.countP counts := by
  have hsame : counts ∘ Item.map change = counts := funext hcounts
  simp only [map, List.countP_map, hsame]

/-- Changed comparisons leave a sound group sound. -/
theorem isSound_map (hcounts : ∀ item : Item, counts (item.map change) = counts item)
    (group : GroupContents) : (group.map change).IsSound counts ↔ group.IsSound counts := by
  rw [IsSound, countP_map hcounts]
  rfl

/-- Groups account for the faults that they account for with changed comparisons. -/
theorem Fault.of_map {groups : List GroupContents} {error : CompileError}
    (hcounts : ∀ item : Item, counts (item.map change) = counts item)
    (h : Fault counts (groups.map (map change)) error) : Fault counts groups error := by
  cases h with
  | mixed place hgroup hmixed =>
    obtain ⟨group, hmem, rfl⟩ := List.mem_map.mp hgroup
    exact .mixed place hmem hmixed
  | few hgroup hne hfew =>
    obtain ⟨group, hmem, rfl⟩ := List.mem_map.mp hgroup
    rw [countP_map hcounts] at hfew
    exact .few hmem hne hfew

end GroupContents

/-- The items of a group change where its comparisons do. -/
theorem Items.toList_map (change : Criteria → Criteria) (items : Items) :
    (items.map change).toList = items.toList.map (Item.map change) := by
  induction items using Items.toList.induct with
  | case1 item => rfl
  | case2 item connective others ih => simp [Items.map, Items.toList, ih]

mutual

/-- The groups of an item change where its comparisons do. -/
theorem Item.groups_map (change : Criteria → Criteria) :
    (item : Item) → (item.map change).groups = item.groups.map (GroupContents.map change)
  | .criteria criteria => rfl
  | .empty => rfl
  | .group lead items => by
    simp [Item.map, Item.groups, GroupContents.map, Items.toList_map, Items.groups_map change items]

/-- The groups of items change where their comparisons do. -/
theorem Items.groups_map (change : Criteria → Criteria) :
    (items : Items) → (items.map change).groups = items.groups.map (GroupContents.map change)
  | .single item => Item.groups_map change item
  | .joined item connective others => by
    simp [Items.map, Items.groups, Item.groups_map change item, Items.groups_map change others]

end

namespace Item

/-- The groups of a list change where its comparisons do. -/
theorem groupsOf_map (change : Criteria → Criteria) (groups : List Item) :
    groupsOf (groups.map (Item.map change)) = (groupsOf groups).map (GroupContents.map change) := by
  simp [groupsOf, List.flatMap_map, List.map_flatMap, groups_map]

/-- A criteria inside is still one when it is changed. -/
@[simp] theorem hasCriteria_map (change : Criteria → Criteria) (item : Item) :
    (item.map change).hasCriteria = item.hasCriteria := by
  rw [hasCriteria, hasCriteria, rules_map, List.any_map, Rule.isCriteria_comp_map]

/-- A list with changed comparisons is read with changed comparisons. -/
theorem Read.map {groups : List Item} {rules : List Rule} (h : Read groups rules)
    (change : Criteria → Criteria) :
    Read (groups.map (Item.map change)) (rules.map (Rule.map change)) := by
  obtain ⟨hgroups, rfl⟩ := h
  exact ⟨by simpa using hgroups, rulesOf_map change groups⟩

/-- A list that the order check accepts has a reading. -/
theorem exists_read {rules : List Rule} (h : checkOrder rules = .ok ()) :
    ∃ groups, Read groups rules :=
  exists_groups_of_checkOrder h

/-- An item that the order check accepts is a group, and a reading of its rules on its own. -/
theorem read_of_checkOrder {item : Item} (h : checkOrder item.rules = .ok ()) :
    Read [item] item.rules := by
  have hgroup : item.isGroup := by
    cases item with
    | criteria criteria => simp [Item.rules, checkOrder, Marker.run, Marker.step] at h
    | empty => rfl
    | group lead items => rfl
  exact ⟨by simpa using hgroup, rulesOf_single⟩

/-- A list that is not empty is read as one group at least. -/
theorem Read.ne_nil {groups : List Item} {rules : List Rule} (h : Read groups rules)
    (hne : rules ≠ []) : groups ≠ [] := by
  rintro rfl
  exact hne h.2.symm

end Item

/-- Some items have a criteria when one of them has. -/
theorem Items.any_isCriteria (items : Items) :
    items.rules.any Rule.isCriteria = items.toList.any Item.hasCriteria := by
  induction items using Items.toList.induct with
  | case1 item => simp [Items.rules, Items.toList, Item.hasCriteria]
  | case2 item connective others ih =>
    simp [Items.rules, Items.toList, Item.hasCriteria, Rule.isCriteria, ih]

/-- A group has a criteria when one of its items has. -/
theorem Item.hasCriteria_group (lead : Option Connective) (items : Items) :
    (Item.group lead items).hasCriteria = items.toList.any Item.hasCriteria := by
  rw [← Items.any_isCriteria]
  cases lead <;> simp [Item.hasCriteria, Item.rules, Rule.isCriteria]

namespace Items

/-- The rules of an item stand among the rules of the items. -/
theorem infix_of_mem {item : Item} : (items : Items) → item ∈ items.toList →
    item.rules <:+: items.rules
  | .single other, h => by
    obtain rfl : item = other := by simpa [Items.toList] using h
    exact List.infix_refl _
  | .joined other connective others, h => by
    rcases List.mem_cons.mp h with rfl | hmem
    · exact infix_first item connective others
    · exact (infix_of_mem others hmem).trans (infix_others other connective others)

end Items

mutual

/-- An item without empty groups has a criteria. -/
theorem Item.hasCriteria_of_full : (item : Item) → ¬ HasEmptyGroup item.rules → item.hasCriteria
  | .criteria criteria, _ => rfl
  | .empty, h => absurd (List.infix_refl _) h
  | .group lead items, h => by
    rw [Item.hasCriteria_group, List.any_eq_true]
    have hitems : ¬ HasEmptyGroup items.rules := fun hempty =>
      h (hempty.trans (Items.infix_group lead items))
    exact Items.exists_hasCriteria_of_full items hitems

/-- Some of the items of a group without empty groups has a criteria. -/
theorem Items.exists_hasCriteria_of_full : (items : Items) → ¬ HasEmptyGroup items.rules →
    ∃ item ∈ items.toList, item.hasCriteria = true
  | .single item, h => ⟨item, by simp [Items.toList], Item.hasCriteria_of_full item h⟩
  | .joined item connective others, h => by
    have hitem : ¬ HasEmptyGroup item.rules := fun hempty =>
      h (hempty.trans (Items.infix_first item connective others))
    exact ⟨item, by simp [Items.toList], Item.hasCriteria_of_full item hitem⟩

end

mutual

/-- The rules of an item that stands in a group of another item stand among the rules of that one. -/
theorem Item.infix_of_groups {inner : Item} {group : GroupContents} : (item : Item) →
    group ∈ item.groups → inner ∈ group.items → inner.rules <:+: item.rules
  | .criteria criteria, hgroup, _ => by simp [Item.groups] at hgroup
  | .empty, hgroup, hinner => by
    obtain rfl : group = ⟨[], []⟩ := by simpa [Item.groups] using hgroup
    simp at hinner
  | .group lead items, hgroup, hinner => by
    have hitems := Items.infix_group lead items
    rcases List.mem_cons.mp hgroup with rfl | hmem
    · exact (Items.infix_of_mem items hinner).trans hitems
    · exact (Items.infix_of_groups items hmem hinner).trans hitems

/-- The rules of an item that stands in a group of some items stand among the rules of those. -/
theorem Items.infix_of_groups {inner : Item} {group : GroupContents} : (items : Items) →
    group ∈ items.groups → inner ∈ group.items → inner.rules <:+: items.rules
  | .single item, hgroup, hinner => Item.infix_of_groups item hgroup hinner
  | .joined item connective others, hgroup, hinner => by
    rcases List.mem_append.mp hgroup with hmem | hmem
    · exact (Item.infix_of_groups item hmem hinner).trans (Items.infix_first item connective others)
    · exact (Items.infix_of_groups others hmem hinner).trans
        (Items.infix_others item connective others)

end

namespace Item

variable {groups : List Item} {rules : List Rule}

/-- The rules of a group stand among the rules of the list. -/
theorem infix_rulesOf {item : Item} (h : item ∈ groups) : item.rules <:+: rulesOf groups := by
  obtain ⟨front, back, rfl⟩ := List.append_of_mem h
  exact ⟨rulesOf front, rulesOf back, by simp [rulesOf]⟩

/-- In a list without empty groups, every group on top has a criteria. -/
theorem Read.countP_eq_length (hread : Read groups rules) (hfull : ¬ HasEmptyGroup rules) :
    groups.countP hasCriteria = groups.length := by
  obtain ⟨_, rfl⟩ := hread
  refine List.countP_eq_length.mpr fun item hitem => item.hasCriteria_of_full fun hempty => ?_
  exact hfull (hempty.trans (infix_rulesOf hitem))

/-- In a list without empty groups, every item of a group has a criteria. -/
theorem Read.countP_items (hread : Read groups rules) (hfull : ¬ HasEmptyGroup rules)
    {group : GroupContents} (hgroup : group ∈ groupsOf groups) :
    group.items.countP hasCriteria = group.items.length := by
  obtain ⟨_, rfl⟩ := hread
  obtain ⟨item, hitem, hmem⟩ := List.mem_flatMap.mp hgroup
  refine List.countP_eq_length.mpr fun inner hinner => inner.hasCriteria_of_full fun hempty => ?_
  exact hfull (hempty.trans ((infix_of_groups item hmem hinner).trans (infix_rulesOf hitem)))

end Item

end FilterRules
