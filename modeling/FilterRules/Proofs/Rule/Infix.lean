import FilterRules.Proofs.Rule.Building
import FilterRules.Proofs.Rule.Groups

/-!
# The value of an infix expression

A rule list is an infix expression over its comparisons. It has a value as soon as each comparison
has one: a group holds when all of its items do, or when one of them does, as its connective says.
A second reading lets a group look only at some of its items; it has the same value where every
item is looked at.
-/

namespace FilterRules

/-- Whether a group with a connective holds, by whether its items do. -/
def Connective.holds : Connective → List Bool → Bool
  | .and, values => values.all id
  | .or, values => values.any id

/-- The connective of a group with items. When none is written all items have to hold. -/
def Items.connective (lead : Option Connective) (items : Items) : Connective :=
  (lead.toList ++ items.connectives).headD .and

mutual

/-- The value of an item. It has none when one of its comparisons has none. -/
def Item.value? (value? : Criteria → Option Bool) : Item → Option Bool
  | .criteria criteria => value? criteria
  | .empty => some true
  | .group lead items => (items.values? value?).map (items.connective lead).holds

/-- The values of the items of a group. -/
def Items.values? (value? : Criteria → Option Bool) : Items → Option (List Bool)
  | .single item => (item.value? value?).map fun value => [value]
  | .joined item _ others => do
    let value ← item.value? value?
    let values ← others.values? value?
    return value :: values

end

/-- The connective of a group does not depend on its comparisons. -/
@[simp] theorem Items.connective_map (change : Criteria → Criteria) (lead : Option Connective)
    (items : Items) : (items.map change).connective lead = items.connective lead := by
  simp [Items.connective]

/-- The values that an item adds to those of its group: its own one if the group keeps it. -/
def Item.addedValues? (kept : Bool) (value : Option Bool) : Option (List Bool) :=
  if kept then value.map fun value => [value] else some []

mutual

/-- The value of an item, where a group looks only at the items that it keeps for its connective. -/
def Item.keptValue? (keeps : Connective → Item → Bool) (value? : Criteria → Option Bool) :
    Item → Option Bool
  | .criteria criteria => value? criteria
  | .empty => some true
  | .group lead items =>
    (items.keptValues? keeps value? (items.connective lead)).map (items.connective lead).holds

/-- The values of those items that a group keeps for its connective. -/
def Items.keptValues? (keeps : Connective → Item → Bool) (value? : Criteria → Option Bool)
    (connective : Connective) : Items → Option (List Bool)
  | .single item => Item.addedValues? (keeps connective item) (item.keptValue? keeps value?)
  | .joined item _ others => do
    let first ← Item.addedValues? (keeps connective item) (item.keptValue? keeps value?)
    let rest ← others.keptValues? keeps value? connective
    return first ++ rest

end

mutual

/-- Where every group keeps all of its items, an item has its plain value. -/
theorem Item.keptValue?_eq_value? {keeps : Connective → Item → Bool}
    (value? : Criteria → Option Bool) : (item : Item) →
    (∀ group ∈ item.groups, ∀ inner ∈ group.items, keeps (group.connectives.headD .and) inner) →
    item.keptValue? keeps value? = item.value? value?
  | .criteria criteria, _ => rfl
  | .empty, _ => rfl
  | .group lead items, h => by
    have hfirst : ∀ inner ∈ items.toList, keeps (items.connective lead) inner :=
      h _ List.mem_cons_self
    have hrest := Items.keptValues?_eq_values? value? (items.connective lead) items hfirst
      fun group hgroup => h group (List.mem_cons_of_mem _ hgroup)
    rw [Item.keptValue?, Item.value?, hrest]

/-- Where every group keeps all of its items, items have their plain values. -/
theorem Items.keptValues?_eq_values? {keeps : Connective → Item → Bool}
    (value? : Criteria → Option Bool) (connective : Connective) : (items : Items) →
    (∀ inner ∈ items.toList, keeps connective inner) →
    (∀ group ∈ items.groups, ∀ inner ∈ group.items, keeps (group.connectives.headD .and) inner) →
    items.keptValues? keeps value? connective = items.values? value?
  | .single item, hitems, hgroups => by
    have hkept : keeps connective item = true := hitems item (by simp [Items.toList])
    have hvalue := Item.keptValue?_eq_value? value? item hgroups
    simp [Items.keptValues?, Items.values?, Item.addedValues?, hkept, hvalue]
  | .joined item _ others, hitems, hgroups => by
    have hkept : keeps connective item = true := hitems item (by simp [Items.toList])
    have hvalue := Item.keptValue?_eq_value? value? item fun group hgroup =>
      hgroups group (List.mem_append_left _ hgroup)
    have hvalues := Items.keptValues?_eq_values? value? connective others
      (fun inner hinner => hitems inner (List.mem_cons_of_mem _ hinner))
      fun group hgroup => hgroups group (List.mem_append_right _ hgroup)
    simp only [Items.keptValues?, Items.values?, Item.addedValues?, hkept, hvalue, hvalues, if_true]
    cases item.value? value? <;> rfl

end

mutual

/-- Changed comparisons that keep their values, and do not decide which items are kept, leave an item
its value. -/
theorem Item.keptValue?_map {keeps : Connective → Item → Bool} {change : Criteria → Criteria}
    {before after : Criteria → Option Bool}
    (hkeeps : ∀ connective item, keeps connective (item.map change) = keeps connective item) :
    (item : Item) →
    (∀ criteria, Rule.criteria criteria ∈ item.rules → after (change criteria) = before criteria) →
    (item.map change).keptValue? keeps after = item.keptValue? keeps before
  | .criteria criteria, h => h criteria (by simp [Item.rules])
  | .empty, _ => rfl
  | .group lead items, h => by
    have hitems := Items.keptValues?_map hkeeps (items.connective lead) items
      fun criteria hcriteria => h criteria (by simp [Item.rules, hcriteria])
    simp only [Item.map, Item.keptValue?, Items.connective_map, hitems]

/-- Changed comparisons that keep their values, and do not decide which items are kept, leave items
their values. -/
theorem Items.keptValues?_map {keeps : Connective → Item → Bool} {change : Criteria → Criteria}
    {before after : Criteria → Option Bool}
    (hkeeps : ∀ connective item, keeps connective (item.map change) = keeps connective item)
    (connective : Connective) : (items : Items) →
    (∀ criteria, Rule.criteria criteria ∈ items.rules → after (change criteria) = before criteria) →
    (items.map change).keptValues? keeps after connective =
      items.keptValues? keeps before connective
  | .single item, h => by
    have hitem := Item.keptValue?_map hkeeps item h
    simp only [Items.map, Items.keptValues?, hkeeps, hitem]
  | .joined item _ others, h => by
    have hitem := Item.keptValue?_map hkeeps item fun criteria hcriteria =>
      h criteria (by simp [Items.rules, hcriteria])
    have hothers := Items.keptValues?_map hkeeps connective others
      fun criteria hcriteria => h criteria (by simp [Items.rules, hcriteria])
    simp only [Items.map, Items.keptValues?, hkeeps, hitem, hothers]

end

/-- Changed comparisons that keep their values leave an item its value. -/
theorem Item.value?_map {change : Criteria → Criteria} {before after : Criteria → Option Bool}
    (item : Item)
    (h : ∀ criteria, Rule.criteria criteria ∈ item.rules →
      after (change criteria) = before criteria) :
    (item.map change).value? after = item.value? before := by
  have hmap := @Item.keptValue?_map (fun _ _ => true) change before after (fun _ _ => rfl) item h
  rwa [Item.keptValue?_eq_value? _ _ (by simp), Item.keptValue?_eq_value? _ _ (by simp)] at hmap

/-- Whether a group with a connective keeps an item: a disjunction leaves out the items without a
criteria. -/
def Connective.keeps : Connective → Item → Bool
  | .and, _ => true
  | .or, item => item.hasCriteria

/-- Changed comparisons leave the items that a group keeps. -/
theorem Connective.keeps_map (change : Criteria → Criteria) (connective : Connective) (item : Item) :
    connective.keeps (item.map change) = connective.keeps item := by
  cases connective with
  | and => rfl
  | or => exact Item.hasCriteria_map change item

/-- An item has its plain value when no disjunction in it has an item without a criteria. -/
theorem Item.keptValue?_of_hasCriteria {value? : Criteria → Option Bool} (item : Item)
    (h : ∀ group ∈ item.groups, .or ∈ group.connectives → ∀ inner ∈ group.items,
      inner.hasCriteria) :
    item.keptValue? Connective.keeps value? = item.value? value? := by
  refine Item.keptValue?_eq_value? _ item fun group hgroup inner hinner => ?_
  cases hconnective : group.connectives.headD .and with
  | and => rfl
  | or =>
    have hor : .or ∈ group.connectives := by
      cases hconnectives : group.connectives with
      | nil => simp [hconnectives] at hconnective
      | cons first others => simp_all
    exact h group hgroup hor inner hinner

end FilterRules
