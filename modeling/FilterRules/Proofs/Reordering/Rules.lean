import FilterRules.Proofs.Rule.Acceptance
import FilterRules.Proofs.Validity
import Mathlib.Data.List.Perm.Basic

/-!
# Rules with the items of groups in another order

A group is reordered when its items change their places, and are reordered themselves. It keeps its
connectives, so that it has a tree whenever the group had one before: that tree with children in another
order. A reordered list has the same comparisons and is valid as before.
-/

namespace FilterRules

/-- Two lists whose entries are related one to one, wherever they stand. -/
inductive ReorderedBy {α β : Type} (related : α → β → Prop) : List α → List β → Prop
  /-- No entries. -/
  | nil : ReorderedBy related [] []
  /-- The first entry of one list, and the entry that it is related to anywhere in the other. -/
  | cons {first : α} {other : β} {list : List α} (front back : List β) (hfirst : related first other)
      (hrest : ReorderedBy related list (front ++ back)) :
      ReorderedBy related (first :: list) (front ++ other :: back)

namespace ReorderedBy

variable {α β γ δ : Type} {related : α → β → Prop} {result : γ → δ → Prop} {list : List α}
  {others : List β}

/-- Entries that are moved first and related then, place by place. -/
theorem of_perm_forall₂ {moved : List α} (hmoved : list.Perm moved)
    (h : List.Forall₂ related moved others) : ReorderedBy related list others := by
  induction list generalizing moved others with
  | nil =>
    obtain rfl := hmoved.nil_eq
    cases h
    exact .nil
  | cons first list ih =>
    -- The first entry was moved to some place, and is related to what stands there.
    obtain ⟨front, back, rfl⟩ := List.append_of_mem (hmoved.mem_iff.mp List.mem_cons_self)
    obtain ⟨lefts, rest, rfl, hlefts, hrest⟩ := Outcome.exists_append_of_forall₂ h
    cases hrest with
    | cons hfirst hrights =>
      have hothers : list.Perm (front ++ back) :=
        (List.perm_cons first).mp (hmoved.trans List.perm_middle)
      exact .cons _ _ hfirst (ih hothers (List.rel_append hlefts hrights))

/-- Entries that are related wherever they stand can be moved so that they are place by place. -/
theorem exists_perm (h : ReorderedBy related list others) :
    ∃ moved, list.Perm moved ∧ List.Forall₂ related moved others := by
  induction h with
  | nil => exact ⟨[], .refl _, .nil⟩
  | @cons first _ _ front back hfirst _ ih =>
    obtain ⟨moved, hmoved, h⟩ := ih
    obtain ⟨lefts, rights, rfl, hlefts, hrights⟩ := Outcome.exists_append_of_forall₂ h.flip
    exact ⟨lefts ++ first :: rights, (hmoved.cons first).trans List.perm_middle.symm,
      List.rel_append hlefts.flip (.cons hfirst hrights.flip)⟩

/-- Entries in another order are each related to itself. -/
theorem of_perm {related : α → α → Prop} {others : List α} (hself : ∀ a, related a a)
    (h : list.Perm others) : ReorderedBy related list others :=
  of_perm_forall₂ h (List.forall₂_same.mpr fun a _ => hself a)

/-- The lists change their roles where the entries do. -/
theorem symm {related' : β → α → Prop} (hsymm : ∀ a b, related a b → related' b a)
    (h : ReorderedBy related list others) : ReorderedBy related' others list := by
  obtain ⟨moved, hmoved, hrelated⟩ := h.exists_perm
  have hflip : List.Forall₂ related' others moved :=
    hrelated.flip.imp fun b a hab => hsymm a b hab
  -- The entries are related first and moved then; it must be the other way round.
  have hcomp : Relation.Comp (List.Forall₂ related') List.Perm others list :=
    ⟨moved, hflip, hmoved.symm⟩
  rw [List.forall₂_comp_perm_eq_perm_comp_forall₂] at hcomp
  obtain ⟨last, hothers, hlast⟩ := hcomp
  exact of_perm_forall₂ hothers hlast

/-- There are as many entries in both lists. -/
theorem length_eq (h : ReorderedBy related list others) : list.length = others.length := by
  obtain ⟨moved, hmoved, hrelated⟩ := h.exists_perm
  exact hmoved.length_eq.trans hrelated.length_eq

/-- Single entries are related. -/
theorem single {first : α} {other : β} (h : ReorderedBy related [first] [other]) :
    related first other := by
  obtain ⟨moved, hmoved, hrelated⟩ := h.exists_perm
  obtain rfl := List.perm_singleton.mp hmoved.symm
  cases hrelated with
  | cons hfirst _ => exact hfirst

/-- What is made of related entries stands in lists that are reordered alike. -/
theorem map {f : α → γ} {g : β → δ} (h : ReorderedBy related list others)
    (hnext : ∀ a b, related a b → result (f a) (g b)) :
    ReorderedBy result (list.map f) (others.map g) := by
  induction h with
  | nil => exact .nil
  | cons front back hfirst _ ih =>
    rw [List.map_append] at ih
    rw [List.map_cons, List.map_append, List.map_cons]
    exact .cons _ _ (hnext _ _ hfirst) ih

/-- One list behind another. -/
theorem append {list' : List α} {others' : List β} (h : ReorderedBy related list others)
    (h' : ReorderedBy related list' others') :
    ReorderedBy related (list ++ list') (others ++ others') := by
  induction h with
  | nil => exact h'
  | cons front back hfirst _ ih =>
    rw [List.append_assoc] at ih
    rw [List.append_assoc]
    exact .cons front (back ++ others') hfirst ih

/-- The entries that are there. -/
theorem flatMap_toList {list : List (Option α)} {others : List (Option β)}
    (h : ReorderedBy (Option.Rel related) list others) :
    ReorderedBy related (list.flatMap Option.toList) (others.flatMap Option.toList) := by
  induction h with
  | nil => exact .nil
  | cons front back hfirst _ ih =>
    rw [List.flatMap_append] at ih
    rw [List.flatMap_cons, List.flatMap_append, List.flatMap_cons]
    cases hfirst with
    | none => exact ih
    | some hfound => exact .cons _ _ hfound ih

/-- What related entries hold is the same in another order. -/
theorem flatMap_perm {f : α → List γ} {g : β → List γ} (h : ReorderedBy related list others)
    (hnext : ∀ a b, related a b → (f a).Perm (g b)) :
    (list.flatMap f).Perm (others.flatMap g) := by
  induction h with
  | nil => exact .refl _
  | cons front back hfirst _ ih =>
    rw [List.flatMap_append] at ih
    rw [List.flatMap_cons, List.flatMap_append, List.flatMap_cons]
    refine ((hnext _ _ hfirst).append ih).trans ?_
    rw [← List.append_assoc, ← List.append_assoc]
    exact List.perm_append_comm.append_right _

/-- Entries of one form that are related to nothing but themselves are the same in another order. -/
theorem exists_map {related : α → α → Prop} {others : List α} {form : γ → α} {found : List γ}
    (hform : ∀ c a, related (form c) a → a = form c)
    (h : ReorderedBy related (found.map form) others) :
    ∃ found', found.Perm found' ∧ others = found'.map form := by
  generalize hlist : found.map form = list at h
  induction h generalizing found with
  | nil => exact ⟨[], by simpa using hlist, rfl⟩
  | cons front back hfirst _ ih =>
    obtain ⟨first, rest, rfl, rfl, rfl⟩ := List.map_eq_cons_iff.mp hlist
    obtain ⟨found', hperm, hothers⟩ := ih rfl
    obtain ⟨lefts, rights, rfl, rfl, rfl⟩ := List.append_eq_map_iff.mp hothers
    obtain rfl := hform _ _ hfirst
    exact ⟨lefts ++ first :: rights, (hperm.cons first).trans List.perm_middle.symm, by simp⟩

/-- Entries of one form that are related to nothing but themselves are found in both lists or in none, and
in another order. -/
theorem perm_found {related : α → α → Prop} {list others : List α} {form : γ → α}
    {find? : List α → Option (List γ)}
    (hfind : ∀ list found, find? list = some found ↔ list = found.map form)
    (hform : ∀ c a, related (form c) a ∨ related a (form c) → a = form c)
    (h : ReorderedBy related list others) : Option.Rel List.Perm (find? list) (find? others) := by
  cases hlist : find? list with
  | some found =>
    obtain rfl := (hfind _ _).mp hlist
    obtain ⟨found', hperm, hothers⟩ := exists_map (fun c a hca => hform c a (Or.inl hca)) h
    rw [(hfind _ _).mpr hothers]
    exact .some hperm
  | none =>
    cases hothers : find? others with
    | none => exact .none
    | some found =>
      obtain rfl := (hfind _ _).mp hothers
      obtain ⟨found', _, hmap⟩ := exists_map (fun c a hca => hform c a (Or.inr hca))
        (h.symm fun _ _ hrelated => hrelated)
      simp [(hfind _ _).mpr hmap] at hlist

/-- When related entries have related results, the results of the lists are reordered. -/
theorem exists_results {run : α → γ → Prop} {run' : β → δ → Prop} {results : List γ}
    (h : ReorderedBy related list others)
    (hrun : ∀ a b, related a b → ∀ c, run a c → ∃ d, run' b d ∧ result c d)
    (hresults : List.Forall₂ run list results) :
    ∃ results', List.Forall₂ run' others results' ∧ ReorderedBy result results results' := by
  induction h generalizing results with
  | nil =>
    cases hresults
    exact ⟨[], .nil, .nil⟩
  | cons front back hfirst _ ih =>
    cases hresults with
    | cons hone hrest =>
      obtain ⟨found, hfound, hsame⟩ := hrun _ _ hfirst _ hone
      obtain ⟨results', hresults', hreordered⟩ := ih hrest
      obtain ⟨lefts, rights, rfl, hlefts, hrights⟩ := Outcome.exists_append_of_forall₂ hresults'
      exact ⟨lefts ++ found :: rights, List.rel_append hlefts (.cons hfound hrights),
        .cons lefts rights hsame hreordered⟩

end ReorderedBy

/-- Items with the items of groups in another order, at any depth. -/
inductive Item.Reordered : Item → Item → Prop
  /-- A comparison stays as it is. -/
  | criteria (criteria : Criteria) : Item.Reordered (.criteria criteria) (.criteria criteria)
  /-- So does a group without items. -/
  | empty : Item.Reordered .empty .empty
  /-- The items of a group change their places among its connectives, and are reordered themselves. -/
  | group (lead : Option Connective) {items others : Items}
      (hconnectives : items.connectives.Perm others.connectives)
      (hitems : ReorderedBy Item.Reordered items.toList others.toList) :
      Item.Reordered (.group lead items) (.group lead others)

section Induction

variable {motive : Item → Item → Prop}

mutual

/-- What holds of reordered items when it does of the items of groups: the items stand in the lists of a
relation between lists, where the induction has to be carried along. -/
@[elab_as_elim]
theorem Item.Reordered.induct (criteria : ∀ criteria, motive (.criteria criteria) (.criteria criteria))
    (empty : motive .empty .empty)
    (group : ∀ (lead : Option Connective) {items others : Items},
      items.connectives.Perm others.connectives →
      ReorderedBy motive items.toList others.toList → motive (.group lead items) (.group lead others)) :
    {item other : Item} → item.Reordered other → motive item other
  | _, _, .criteria single => criteria single
  | _, _, .empty => empty
  | _, _, .group lead hconnectives hitems =>
    group lead hconnectives (Item.Reordered.induct_items criteria empty group hitems)

/-- What holds of the items of a reordered group. -/
theorem Item.Reordered.induct_items
    (criteria : ∀ criteria, motive (.criteria criteria) (.criteria criteria))
    (empty : motive .empty .empty)
    (group : ∀ (lead : Option Connective) {items others : Items},
      items.connectives.Perm others.connectives →
      ReorderedBy motive items.toList others.toList → motive (.group lead items) (.group lead others)) :
    {items others : List Item} → ReorderedBy Item.Reordered items others →
    ReorderedBy motive items others
  | _, _, .nil => .nil
  | _, _, .cons front back hfirst hrest =>
    .cons front back (Item.Reordered.induct criteria empty group hfirst)
      (Item.Reordered.induct_items criteria empty group hrest)

end

end Induction

namespace Item.Reordered

variable {item other : Item}

/-- The other way round, the items are reordered too. -/
theorem symm (h : item.Reordered other) : other.Reordered item := by
  refine Item.Reordered.induct ?criteria ?empty ?group h
  case criteria => exact .criteria
  case empty => exact .empty
  case group =>
    intro lead items others hconnectives hitems
    exact .group lead hconnectives.symm (hitems.symm fun _ _ hitem => hitem)

/-- Reordered items stay so with other comparisons. -/
theorem map (change : Criteria → Criteria) (h : item.Reordered other) :
    (item.map change).Reordered (other.map change) := by
  refine Item.Reordered.induct ?criteria ?empty ?group h
  case criteria => exact fun criteria => .criteria (change criteria)
  case empty => exact .empty
  case group =>
    intro lead items others hconnectives hitems
    refine .group lead (by simpa using hconnectives) ?_
    rw [Items.toList_map, Items.toList_map]
    exact hitems.map fun _ _ hitem => hitem

/-- Reordered items have the same comparisons in another order. -/
theorem criteriaOf_perm (h : item.Reordered other) :
    (Rule.criteriaOf item.rules).Perm (Rule.criteriaOf other.rules) := by
  refine Item.Reordered.induct ?criteria ?empty ?group h
  case criteria => exact fun criteria => .refl _
  case empty => exact .refl _
  case group =>
    intro lead items others _ hitems
    rw [Item.rules, Item.rules, Rule.criteriaOf_group, Rule.criteriaOf_group,
      Items.criteriaOf_rules, Items.criteriaOf_rules]
    exact hitems.flatMap_perm fun _ _ hitem => hitem

/-- Reordered items have the same comparisons. -/
theorem mem_rules_iff (h : item.Reordered other) (criteria : Criteria) :
    Rule.criteria criteria ∈ item.rules ↔ Rule.criteria criteria ∈ other.rules := by
  rw [← Rule.mem_criteriaOf, ← Rule.mem_criteriaOf, h.criteriaOf_perm.mem_iff]

/-- Reordered lists rank documents alike. -/
theorem requiresScoring_eq (h : item.Reordered other) :
    requiresScoring item.rules = requiresScoring other.rules := by
  rw [Bool.eq_iff_iff, requiresScoring_iff, requiresScoring_iff]
  exact exists_congr fun criteria => and_congr_left fun _ => h.mem_rules_iff criteria

/-- A reordered list is valid when the list is. -/
theorem validate_iff (schema : Schema) (h : item.Reordered other) :
    validate item.rules schema = .ok () ↔ validate other.rules schema = .ok () := by
  cases h with
  | criteria criteria => exact Iff.rfl
  | empty => exact Iff.rfl
  | @group lead items others hconnectives hitems =>
    have hmem := (Item.Reordered.group lead hconnectives hitems).mem_rules_iff
    have horder (inner : Items) : checkOrder (Item.group lead inner).rules = .ok () :=
      Item.checkOrder_rules rfl
    have hne (inner : Items) : (Item.group lead inner).rules ≠ [] := by simp [Item.rules]
    simp only [validate_eq_ok_iff, hmem, horder, hne, ne_eq, not_false_eq_true, true_and, and_true]

end Item.Reordered

/-- Trees with the children of groups in another order, at any depth. -/
inductive Tree.Reordered : Tree → Tree → Prop
  /-- A comparison stays as it is. -/
  | leaf (criteria : Criteria) : Tree.Reordered (.leaf criteria) (.leaf criteria)
  /-- The children of a group change their places, and are reordered themselves. -/
  | group (connective : Connective) {children others : List Tree}
      (hchildren : ReorderedBy Tree.Reordered children others) :
      Tree.Reordered (.group connective children) (.group connective others)

section Induction

variable {motive : Tree → Tree → Prop}

mutual

/-- What holds of reordered trees when it does of the children of groups. -/
@[elab_as_elim]
theorem Tree.Reordered.induct (leaf : ∀ criteria, motive (.leaf criteria) (.leaf criteria))
    (group : ∀ (connective : Connective) {children others : List Tree},
      ReorderedBy Tree.Reordered children others → ReorderedBy motive children others →
      motive (.group connective children) (.group connective others)) :
    {tree other : Tree} → tree.Reordered other → motive tree other
  | _, _, .leaf criteria => leaf criteria
  | _, _, .group connective hchildren =>
    group connective hchildren (Tree.Reordered.induct_children leaf group hchildren)

/-- What holds of the children of a reordered group. -/
theorem Tree.Reordered.induct_children (leaf : ∀ criteria, motive (.leaf criteria) (.leaf criteria))
    (group : ∀ (connective : Connective) {children others : List Tree},
      ReorderedBy Tree.Reordered children others → ReorderedBy motive children others →
      motive (.group connective children) (.group connective others)) :
    {trees others : List Tree} → ReorderedBy Tree.Reordered trees others →
    ReorderedBy motive trees others
  | _, _, .nil => .nil
  | _, _, .cons front back hfirst hrest =>
    .cons front back (Tree.Reordered.induct leaf group hfirst)
      (Tree.Reordered.induct_children leaf group hrest)

end

end Induction

/-- A reordered item has a reordered tree. -/
theorem Item.Reordered.exists_tree {item other : Item} {tree : Tree} (h : item.Reordered other)
    (htree : item.HasTree tree) : ∃ tree', other.HasTree tree' ∧ tree.Reordered tree' := by
  refine Item.Reordered.induct ?criteria ?empty ?group h tree htree
  case criteria =>
    rintro criteria _ ⟨⟩
    exact ⟨_, .criteria criteria, .leaf criteria⟩
  case empty =>
    rintro _ ⟨⟩
    exact ⟨_, .empty, .group .and .nil⟩
  case group =>
    intro lead items others hconnectives hitems tree htree
    obtain ⟨connective, trees, rfl, htrees, hlead, hsame, hnone⟩ := Item.hasTree_group_iff.mp htree
    obtain ⟨trees', htrees', hreordered⟩ := hitems.exists_results (fun _ _ hitem => hitem) htrees
    refine ⟨_, Item.hasTree_group_iff.mpr ⟨connective, trees', rfl, htrees', hlead, ?_, ?_⟩,
      .group connective hreordered⟩
    · exact fun found hfound => hsame found (hconnectives.mem_iff.mpr hfound)
    · intro hempty
      rw [hempty] at hconnectives
      exact hnone hconnectives.eq_nil

/-- A list that is reordered has a reordered tree. -/
theorem Item.Reordered.exists_ofRules {item other : Item} {tree : Tree} (h : item.Reordered other)
    (hgroup : item.isGroup) (htree : Tree.ofRules item.rules = .ok tree) :
    ∃ tree', Tree.ofRules other.rules = .ok tree' ∧ tree.Reordered tree' := by
  have hother : other.isGroup := by cases h <;> exact hgroup
  rw [Tree.ofRules_item hgroup, Item.tree_eq_ok_iff] at htree
  obtain ⟨tree', htree', hreordered⟩ := h.exists_tree htree
  refine ⟨tree', ?_, hreordered⟩
  rw [Tree.ofRules_item hother, Item.tree_eq_ok_iff]
  exact htree'

end FilterRules
