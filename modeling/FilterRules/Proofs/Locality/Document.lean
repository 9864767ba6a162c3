import FilterRules.Proofs.Document.Acceptance
import FilterRules.Proofs.Locality.Rules
import FilterRules.Proofs.Projection

/-!
# What a document query reads of a schema

A clause reads the key of its selection. A group reads the places above the fields of its clauses, and
those lie above the attributes of its comparisons, as does the list that a selection is made from. So the
members of an item are the same under schemas that agree on the places of its comparisons, and each
clause among them is one above whose field the schemas agree, which is what a group around it needs.
-/

namespace FilterRules

open Outcome (Related)

variable {schema other : Schema} {criteria : Criteria}

/-- The clause of a comparison is the same, and the schemas agree above its field. -/
theorem Criteria.IsReadAlike.clause (h : criteria.IsReadAlike schema other) :
    Related (fun first second => first = second ∧
        schema.AgreeOn other (Dotted.ancestors first.path))
      (criteria.clause schema) (criteria.clause other) := by
  obtain ⟨path, hpath, hagree, hspelled⟩ := h
  rw [Criteria.clause, Criteria.clause, AttributePath.parseAt_eq_ok_iff.mpr hpath]
  cases criteria.condition with
  | error error => exact .error error
  | ok condition =>
    simp only [Outcome.ok_bind]
    cases path with
    | plain segments =>
      have habove := hagree.ancestors
      rw [hspelled rfl] at habove
      exact .ok ⟨rfl, habove⟩
    | filtered array key value element =>
      -- The clause is one on the list that the selection is made from, which lies above the field.
      obtain ⟨_, inner, hinner, _, hsegments⟩ :=
        AttributePath.segments_of_selection (AttributePath.isProper_of_parse? hpath) rfl rfl
      have habove := hagree.ancestors.above (Dotted.mem_ancestors_of_segments hinner hsegments)
      rw [hagree.emittedFilter_eq]
      cases (AttributePath.filtered array key value element).emittedFilter other with
      | error error => exact .error error
      | ok literal => exact .ok ⟨rfl, habove⟩

/-- Whether the schemas agree above the field of a member, if it is a clause. -/
def Member.IsReadAlike (schema other : Schema) (member : Member) : Prop :=
  ∀ clause, member = .clause clause → schema.AgreeOn other (Dotted.ancestors clause.path)

/-- Members that are clauses, the schemas agree above all of their fields. -/
theorem Member.clauses?_readAlike {members : List Member} {clauses : List FieldClause}
    (h : ∀ member ∈ members, member.IsReadAlike schema other)
    (hclauses : clauses? members = some clauses) :
    ∀ clause ∈ clauses, schema.AgreeOn other (Dotted.ancestors clause.path) := by
  induction members generalizing clauses with
  | nil =>
    obtain rfl := Option.some.inj hclauses
    simp
  | cons member members ih =>
    obtain ⟨hmember, hmembers⟩ := List.forall_mem_cons.mp h
    cases member with
    | query joined => simp [clauses?] at hclauses
    | clause single =>
      obtain ⟨rest, hrest, rfl⟩ := Option.map_eq_some_iff.mp hclauses
      exact List.forall_mem_cons.mpr ⟨hmember single rfl, ih hmembers hrest⟩

/-- A group of members that are read alike is joined alike. -/
theorem resolveGroup_readAlike {members : List Member}
    (h : ∀ member ∈ members, member.IsReadAlike schema other) (connective : Connective) :
    resolveGroup connective members schema = resolveGroup connective members other := by
  rw [resolveGroup, resolveGroup]
  cases hclauses : Member.clauses? members with
  | none => rfl
  | some clauses =>
    have hroot := Schema.AgreeOn.groupingRoot?_eq
      (List.forall_mem_map.mpr (Member.clauses?_readAlike h hclauses)) .array
    simp only [hroot]

/-- Members that are read alike come down to the same, or to nothing with the same fault. -/
theorem Member.joined_readAlike {members : List Member}
    (h : ∀ member ∈ members, member.IsReadAlike schema other) (connective : Option Connective) :
    Related (fun found second => found = second ∧
        ∀ member ∈ found, member.IsReadAlike schema other)
      (joined schema connective members) (joined other connective members) := by
  cases connective with
  | none =>
    match members, h with
    | [], _ => exact .ok ⟨rfl, by simp⟩
    | [member], h => exact .ok ⟨rfl, by simpa using h⟩
    | _ :: _ :: _, _ => exact .error _
  | some connective =>
    rw [joined, joined, resolveGroup_readAlike h]
    split
    · exact .error _
    · exact .ok ⟨rfl, by simp [IsReadAlike]⟩

/-- Whether all comparisons of a list are read alike under two schemas. -/
def AreReadAlike (schema other : Schema) (rules : List Rule) : Prop :=
  ∀ criteria, Rule.criteria criteria ∈ rules → criteria.IsReadAlike schema other

mutual

/-- An item whose comparisons are read alike comes down to the same member, which is read alike. -/
theorem Item.member?_readAlike : (item : Item) → AreReadAlike schema other item.rules →
    Related (fun found second => found = second ∧
        ∀ member ∈ found, member.IsReadAlike schema other)
      (item.member? schema) (item.member? other)
  | .criteria criteria, h => by
    rw [Item.member?, Item.member?]
    refine (h criteria (by simp [Item.rules])).clause.map fun first second hclause => ?_
    obtain ⟨rfl, hagree⟩ := hclause
    exact ⟨rfl, by simpa [Member.IsReadAlike] using hagree⟩
  | .empty, _ => .ok ⟨rfl, by simp⟩
  | .group lead items, h => by
    rw [Item.member?, Item.member?]
    refine (Items.members_readAlike items fun criteria hcriteria =>
      h criteria ((Items.infix_group lead items).subset hcriteria)).bind fun members second hmembers => ?_
    obtain ⟨rfl, hall⟩ := hmembers
    cases Connective.agreed (lead.toList ++ items.connectives) with
    | error error => exact .error error
    | ok connective => exact Member.joined_readAlike hall connective

/-- Items whose comparisons are read alike come down to the same members, which are read alike. -/
theorem Items.members_readAlike : (items : Items) → AreReadAlike schema other items.rules →
    Related (fun members second => members = second ∧
        ∀ member ∈ members, member.IsReadAlike schema other)
      (items.members schema) (items.members other)
  | .single item, h => by
    rw [Items.members, Items.members]
    refine (Item.member?_readAlike item h).map fun found second hfound => ?_
    obtain ⟨rfl, hall⟩ := hfound
    exact ⟨rfl, by simpa using hall⟩
  | .joined item connective others, h => by
    rw [Items.members, Items.members]
    refine (Items.members_readAlike others fun criteria hcriteria =>
      h criteria ((Items.infix_others item connective others).subset hcriteria)).bind
        fun members second hmembers => ?_
    refine (Item.member?_readAlike item fun criteria hcriteria =>
      h criteria ((Items.infix_first item connective others).subset hcriteria)).bind
        fun found second' hfound => ?_
    obtain ⟨rfl, hall⟩ := hmembers
    obtain ⟨rfl, hfirst⟩ := hfound
    refine .ok ⟨rfl, fun member hmember => ?_⟩
    rcases List.mem_append.mp hmember with hmem | hmem
    · exact hfirst member (by simpa using hmem)
    · exact hall member hmem

end

/-- Groups whose comparisons are read alike come down to the same members. -/
theorem Item.membersOf_readAlike {groups : List Item}
    (h : AreReadAlike schema other (Item.rulesOf groups)) :
    Item.membersOf schema groups = Item.membersOf other groups := by
  induction groups with
  | nil => rfl
  | cons first rest ih =>
    have hfirst : AreReadAlike schema other first.rules := fun criteria hcriteria =>
      h criteria (List.mem_append_left _ hcriteria)
    have hrest : AreReadAlike schema other (Item.rulesOf rest) := fun criteria hcriteria =>
      h criteria (List.mem_append_right _ hcriteria)
    rw [Item.membersOf, Item.membersOf, ih hrest,
      (Item.member?_readAlike first hfirst).eq fun _ _ hfound => hfound.1]

namespace Compiler

variable {settings : Settings} {rules : List Rule}

/-- The document query of a valid list whose converted comparisons are read alike is the same. -/
theorem documentQuery_readAlike (hvalid : validate rules schema = .ok ())
    (hcanonical : IsCanonical rules) (hagree : schema.AgreeOn other (placesOf rules)) :
    documentQuery ⟨schema, settings⟩ rules = documentQuery ⟨other, settings⟩ rules := by
  have hother := hagree.validate_eq.symm.trans hvalid
  have halike : AreReadAlike schema other (convertedRules rules schema settings false) :=
    isReadAlike_of_validate hvalid hcanonical hagree
  have hclauses := @haveClauses_of_validate ⟨schema, settings⟩ rules hvalid
  have hclauses' := @haveClauses_of_validate ⟨other, settings⟩ rules hother
  rw [documentQuery_eq_ofRules hvalid, documentQuery_eq_ofRules hother]
  rw [← hagree.convertedRules_eq] at hclauses' ⊢
  obtain ⟨groups, _, hrules⟩ := Item.exists_read
    (checkOrder_of_validate (validate_convertedRules settings false hvalid))
  rw [← hrules] at hclauses hclauses' halike ⊢
  rw [DocumentQuery.ofRules_eq_members hclauses, DocumentQuery.ofRules_eq_members hclauses',
    Item.membersOf_readAlike halike]

end Compiler

end FilterRules
