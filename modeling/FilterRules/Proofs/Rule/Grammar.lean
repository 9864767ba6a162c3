import FilterRules.Rule.Order

/-!
# The grammar of rule lists

A rule list is a sequence of groups. Between the marks of a group stand no rules at all, or items
with a connective between each two of them; one more connective may stand in front of the first
item. An item is a criteria or a group. The order check on a stack of markers accepts exactly the
lists of this grammar, at every length and depth.
-/

namespace FilterRules

/-- What a part of a rule list can be. -/
inductive Category where
  /-- A whole rule list. -/
  | top
  /-- A group with its marks. -/
  | group
  /-- What stands between the marks of a group. -/
  | body
  /-- At least one item, with connectives between them. -/
  | items
  /-- A criteria or a group. -/
  | item
deriving DecidableEq

/-- The productions of the grammar. -/
inductive Derives : Category → List Rule → Prop
  /-- A rule list may be empty. -/
  | noGroups : Derives .top []
  /-- A group stands in front of a rule list. -/
  | groups {first rest : List Rule} (hfirst : Derives .group first) (hrest : Derives .top rest) :
      Derives .top (first ++ rest)
  /-- A group is its body between two marks. -/
  | group {body : List Rule} (hbody : Derives .body body) :
      Derives .group (.separator .opening :: (body ++ [.separator .closing]))
  /-- A body may be empty. -/
  | emptyBody : Derives .body []
  /-- A body may hold items. -/
  | plainBody {rules : List Rule} (hitems : Derives .items rules) : Derives .body rules
  /-- A connective may lead the items of a body. -/
  | ledBody (lead : Connective) {rules : List Rule} (hitems : Derives .items rules) :
      Derives .body (.logical lead :: rules)
  /-- One item alone. -/
  | single {rules : List Rule} (hitem : Derives .item rules) : Derives .items rules
  /-- An item, a connective and further items. -/
  | joined {first others : List Rule} (hitem : Derives .item first) (connective : Connective)
      (hitems : Derives .items others) : Derives .items (first ++ .logical connective :: others)
  /-- A criteria is an item. -/
  | criteria (criteria : Criteria) : Derives .item [.criteria criteria]
  /-- A group is an item. -/
  | nested {rules : List Rule} (hgroup : Derives .group rules) : Derives .item rules

namespace Marker

/-- A run that succeeds is the repetition of single steps. -/
theorem run_eq_ok_iff (index : Nat) {stack final : List Marker} {rules : List Rule} :
    run index stack rules = .ok final ↔ rules.foldlM step stack = some final := by
  induction rules generalizing index stack with
  | nil => simp [run]
  | cons rule rest ih =>
    cases hstep : step stack rule with
    | none => simp [run, hstep]
    | some next => simp [run, hstep, ih (index + 1)]

end Marker

/-- The order check accepts a list when its markers leave an empty stack. -/
theorem checkOrder_eq_ok_iff {rules : List Rule} :
    checkOrder rules = .ok () ↔ rules.foldlM Marker.step [] = some [] := by
  rw [← Marker.run_eq_ok_iff 0]
  unfold checkOrder
  split <;> simp_all

namespace Marker

/-- An item may stand on a stack that has an opening mark or a connective on top. -/
def AwaitsItem : List Marker → Prop
  | .opening :: _ | .logical :: _ => True
  | _ => False

/-- The stack after a group that began on it: inside another group it leaves an item. -/
def afterGroup : List Marker → List Marker
  | [] => []
  | marker :: below => .item :: marker :: below

/-- A group may begin outside all groups and wherever an item may stand. -/
def AwaitsGroup (stack : List Marker) : Prop := stack = [] ∨ AwaitsItem stack

/-- What the rules of each category do to a stack. -/
def Accepts : Category → List Rule → Prop
  | .top, rules => rules.foldlM step [] = some []
  | .group, rules => ∀ stack, AwaitsGroup stack → rules.foldlM step stack = some (afterGroup stack)
  | .body, rules => ∀ stack,
      (rules ++ [Rule.separator .closing]).foldlM step (.opening :: stack) = some (afterGroup stack)
  | .items, rules => ∀ stack, AwaitsItem stack → ∃ below,
      rules.foldlM step stack = some (.item :: below) ∧ belowOpening? below = belowOpening? stack
  | .item, rules => ∀ stack, AwaitsItem stack → rules.foldlM step stack = some (.item :: stack)

/-- Closing a group whose innermost opening mark stands on a stack gives that stack. -/
theorem close?_of_belowOpening? {inside stack : List Marker}
    (h : belowOpening? inside = some stack) : close? inside = some (afterGroup stack) := by
  cases stack <;> simp [close?, h, afterGroup]

/-- Items close the group that they stand in. -/
theorem accepts_closing {rules : List Rule} (hitems : Accepts .items rules)
    {start stack : List Marker} (hstart : AwaitsItem start)
    (hbelow : belowOpening? start = some stack) :
    (rules ++ [Rule.separator .closing]).foldlM step start = some (afterGroup stack) := by
  obtain ⟨below, hrun, hsame⟩ := hitems start hstart
  have hclose : step (.item :: below) (.separator .closing) = some (afterGroup stack) :=
    close?_of_belowOpening? (hsame.trans hbelow)
  simp [List.foldlM_append, hrun, hclose]

/-- An opening mark may stand where a group may begin. -/
theorem step_opening {stack : List Marker} (hstack : AwaitsGroup stack) :
    step stack (.separator .opening) = some (.opening :: stack) := by
  rcases hstack with rfl | hitem
  · rfl
  · cases stack with
    | nil => rfl
    | cons marker below => cases marker <;> first | rfl | exact hitem.elim

/-- A group that began on a stack that is not empty leaves an item there. -/
theorem afterGroup_of_ne_nil {stack : List Marker} (hne : stack ≠ []) :
    afterGroup stack = .item :: stack := by
  cases stack with
  | nil => exact absurd rfl hne
  | cons marker below => rfl

/-- A stack on which an item may stand is not empty. -/
theorem AwaitsItem.ne_nil {stack : List Marker} (hstack : AwaitsItem stack) : stack ≠ [] := by
  rintro rfl
  exact hstack

/-- Every part that the grammar derives passes over the stack in its own way. -/
theorem accepts_of_derives {category : Category} {rules : List Rule}
    (h : Derives category rules) : Accepts category rules := by
  induction h with
  | noGroups => rfl
  | groups _ _ ihfirst ihrest =>
    have hfirst := ihfirst [] (Or.inl rfl)
    simp only [Accepts, afterGroup] at ihrest hfirst ⊢
    simp [List.foldlM_append, hfirst, ihrest]
  | group _ ihbody =>
    intro stack hstack
    rw [List.foldlM_cons, step_opening hstack]
    exact ihbody stack
  | emptyBody =>
    intro stack
    have hclose : step (.opening :: stack) (.separator .closing) = some (afterGroup stack) :=
      close?_of_belowOpening? rfl
    simp [hclose]
  | plainBody _ ih => exact fun stack => accepts_closing ih trivial rfl
  | ledBody lead _ ih =>
    intro stack
    have hstart : AwaitsItem (.logical :: .opening :: stack) := trivial
    exact accepts_closing ih hstart rfl
  | single _ ih => exact fun stack hstack => ⟨stack, ih stack hstack, rfl⟩
  | joined _ connective _ ihitem ihitems =>
    intro stack hstack
    obtain ⟨below, hrun, hsame⟩ := ihitems (.logical :: .item :: stack) trivial
    refine ⟨below, ?_, hsame⟩
    have hjoin : step (.item :: stack) (.logical connective) = some (.logical :: .item :: stack) :=
      rfl
    simp [List.foldlM_append, ihitem stack hstack, hjoin, hrun]
  | criteria criteria =>
    intro stack hstack
    cases stack with
    | nil => exact hstack.elim
    | cons marker below => cases marker <;> first | rfl | exact hstack.elim
  | nested _ ih =>
    intro stack hstack
    rw [ih stack (Or.inr hstack), afterGroup_of_ne_nil hstack.ne_nil]

/-- What may follow a marker inside its group, up to the end of the group. -/
def Continues : Marker → List Rule → Prop
  | .opening, rules => Derives .body rules
  | .logical, rules => Derives .items rules
  | .item, rules => rules = [] ∨
      ∃ connective others, rules = .logical connective :: others ∧ Derives .items others

/-- What may follow a stack up to the end of a list: for each open group its remaining rules and
its closing mark, and then further groups. -/
inductive Completes : List Marker → List Rule → Prop
  /-- Outside all groups stand further groups. -/
  | outside {rules : List Rule} (hrules : Derives .top rules) : Completes [] rules
  /-- Inside a group stand its remaining rules, and the list goes on behind it. -/
  | inside {marker : Marker} {below next : List Marker} {inner outer : List Rule}
      (hinner : Continues marker inner) (hclose : close? (marker :: below) = some next)
      (houter : Completes next outer) :
      Completes (marker :: below) (inner ++ .separator .closing :: outer)

/-- The stack that closing leaves does not depend on an item on top. -/
theorem close?_item (stack : List Marker) : close? (.item :: stack) = close? stack := rfl

/-- The stack that closing leaves does not depend on a connective on top. -/
theorem close?_logical (stack : List Marker) : close? (.logical :: stack) = close? stack := rfl

/-- An item and what follows it are items. -/
theorem items_of_continues {item rest : List Rule} (hitem : Derives .item item)
    (hrest : Continues .item rest) : Derives .items (item ++ rest) := by
  rcases hrest with rfl | ⟨connective, others, rfl, hothers⟩
  · rw [List.append_nil]
    exact .single hitem
  · exact .joined hitem connective hothers

/-- Where an item may stand, items may follow. -/
theorem continues_of_items {marker : Marker} {below : List Marker} {rules : List Rule}
    (hmarker : AwaitsItem (marker :: below)) (hitems : Derives .items rules) :
    Continues marker rules := by
  cases marker with
  | opening => exact .plainBody hitems
  | logical => exact hitems
  | item => exact hmarker.elim

/-- A group that begins outside all groups is one of the groups of the list. -/
theorem completes_opening_nil {rules : List Rule} (h : Completes [.opening] rules) :
    Derives .top (.separator .opening :: rules) := by
  cases h with
  | inside hinner hclose houter =>
    obtain rfl := Option.some.inj hclose
    cases houter with
    | outside houter => simpa using Derives.groups (.group hinner) houter

/-- A group that begins inside another one is one of its items. -/
theorem completes_opening_cons {marker : Marker} {below : List Marker} {rules : List Rule}
    (hmarker : AwaitsItem (marker :: below))
    (h : Completes (.opening :: marker :: below) rules) :
    Completes (marker :: below) (.separator .opening :: rules) := by
  cases h with
  | inside hinner hclose houter =>
    obtain rfl := Option.some.inj hclose
    cases houter with
    | inside hrest hclose houter =>
      have hitems := items_of_continues (.nested (.group hinner)) hrest
      rw [close?_item] at hclose
      simpa using Completes.inside (continues_of_items hmarker hitems) hclose houter

/-- A criteria is one of the items of its group. -/
theorem completes_criteria {marker : Marker} {below : List Marker} {criteria : Criteria}
    {rules : List Rule} (hmarker : AwaitsItem (marker :: below))
    (h : Completes (.item :: marker :: below) rules) :
    Completes (marker :: below) (.criteria criteria :: rules) := by
  cases h with
  | inside hrest hclose houter =>
    have hitems := items_of_continues (.criteria criteria) hrest
    rw [close?_item] at hclose
    simpa using Completes.inside (continues_of_items hmarker hitems) hclose houter

/-- A connective leads the items of its group or joins two of them. -/
theorem completes_logical {marker : Marker} {below : List Marker} {connective : Connective}
    {rules : List Rule} (hmarker : marker ≠ .logical)
    (h : Completes (.logical :: marker :: below) rules) :
    Completes (marker :: below) (.logical connective :: rules) := by
  cases h with
  | @inside _ _ _ inner outer hitems hclose houter =>
    rw [close?_logical] at hclose
    have hinner : Continues marker (.logical connective :: inner) := by
      cases marker with
      | opening => exact .ledBody connective hitems
      | logical => exact absurd rfl hmarker
      | item => exact Or.inr ⟨connective, inner, rfl, hitems⟩
    exact Completes.inside hinner hclose houter

/-- A closing mark ends a group that is empty or has an item last. -/
theorem completes_closing {marker : Marker} {below next : List Marker} {rules : List Rule}
    (hmarker : marker ≠ .logical) (hclose : close? (marker :: below) = some next)
    (h : Completes next rules) : Completes (marker :: below) (.separator .closing :: rules) := by
  have hinner : Continues marker [] := by
    cases marker with
    | opening => exact .emptyBody
    | logical => exact absurd rfl hmarker
    | item => exact Or.inl rfl
  exact Completes.inside hinner hclose h

/-- One rule more in front: what follows the stack after a rule, behind that rule follows the stack
before it. -/
theorem completes_of_step {stack next : List Marker} {rule : Rule} {rest : List Rule}
    (hstep : step stack rule = some next) (h : Completes next rest) :
    Completes stack (rule :: rest) := by
  cases rule with
  | separator mark =>
    cases mark with
    | opening =>
      rcases stack with _ | ⟨_ | _ | _, below⟩ <;>
        simp only [step, Option.some.injEq, reduceCtorEq] at hstep <;> subst hstep
      · exact .outside (completes_opening_nil h)
      · exact completes_opening_cons trivial h
      · exact completes_opening_cons trivial h
    | closing =>
      rcases stack with _ | ⟨_ | _ | _, below⟩ <;> simp only [step, reduceCtorEq] at hstep
      · exact completes_closing (by decide) hstep h
      · exact completes_closing (by decide) hstep h
  | logical connective =>
    rcases stack with _ | ⟨_ | _ | _, below⟩ <;>
      simp only [step, Option.some.injEq, reduceCtorEq] at hstep <;> subst hstep
    · exact completes_logical (by decide) h
    · exact completes_logical (by decide) h
  | criteria criteria =>
    rcases stack with _ | ⟨_ | _ | _, below⟩ <;>
      simp only [step, Option.some.injEq, reduceCtorEq] at hstep <;> subst hstep
    · exact completes_criteria trivial h
    · exact completes_criteria trivial h

/-- What follows the stack that a run leaves, behind the rules of the run follows the stack before
it. -/
theorem completes_append {stack next : List Marker} {front rest : List Rule}
    (hrun : front.foldlM step stack = some next) (hrest : Completes next rest) :
    Completes stack (front ++ rest) := by
  induction front generalizing stack with
  | nil =>
    obtain rfl : stack = next := by simpa using hrun
    exact hrest
  | cons rule front ih =>
    rw [List.foldlM_cons] at hrun
    obtain ⟨middle, hstep, hfront⟩ := Option.bind_eq_some_iff.mp hrun
    exact completes_of_step hstep (ih hfront)

/-- A run that empties the stack went over rules that may follow the stack. -/
theorem completes_of_foldlM {stack : List Marker} {rules : List Rule}
    (h : rules.foldlM step stack = some []) : Completes stack rules := by
  simpa using completes_append h (.outside .noGroups)

/-- A list is one of the grammar exactly when its rules leave an empty stack. -/
theorem derives_top_iff {rules : List Rule} :
    Derives .top rules ↔ rules.foldlM step [] = some [] := by
  constructor
  · intro hrules
    exact accepts_of_derives hrules
  · intro hrun
    cases completes_of_foldlM hrun with
    | outside hrules => exact hrules

end Marker

/-- A list that the order check accepts is one of the grammar. -/
theorem derives_of_checkOrder {rules : List Rule} (h : checkOrder rules = .ok ()) :
    Derives .top rules :=
  Marker.derives_top_iff.mpr (checkOrder_eq_ok_iff.mp h)

/-- The order check accepts exactly the rule lists of the grammar. -/
theorem checkOrder_iff_derives (rules : List Rule) :
    checkOrder rules = .ok () ↔ Derives .top rules := by
  rw [checkOrder_eq_ok_iff, Marker.derives_top_iff]

end FilterRules
