import FilterRules.Proofs.Document.Acceptance
import FilterRules.Proofs.Search.Acceptance

/-!
# Which lists have both queries

The document query and the search query of a list are made in two ways, with two ideas of an empty
group: for the search it is an item of the group around it and a root beside other ones, for the
document it is nothing at all. A list without empty groups has both queries or neither, and a list
with one query has the other one unless its empty groups stand in the way.
-/

namespace FilterRules

/-- A group is sound with items that have a criteria when it is sound with all items and a connective
still has two to join. -/
theorem GroupContents.isSound_hasCriteria_iff (group : GroupContents) :
    group.IsSound Item.hasCriteria ↔ (group.IsSound fun _ => true) ∧
      (group.connectives ≠ [] → 2 ≤ group.items.countP Item.hasCriteria) := by
  have hle : group.items.countP Item.hasCriteria ≤ group.items.countP fun _ => true :=
    List.countP_mono_left fun _ _ _ => rfl
  constructor
  · rintro ⟨hmixed, hmany⟩
    exact ⟨⟨hmixed, fun hne => (hmany hne).trans hle⟩, hmany⟩
  · rintro ⟨⟨hmixed, _⟩, hmany⟩
    exact ⟨hmixed, hmany⟩

namespace Compiler

variable {compiler : Compiler} {rules : List Rule} {groups : List Item}

/-- A list with a search query is valid. -/
theorem validate_of_searchQuery (h : ∃ query, compiler.searchQuery rules = .ok query) :
    validate rules compiler.schema = .ok () := by
  obtain ⟨query, hquery⟩ := h
  obtain ⟨⟨⟩, hvalid, _⟩ := Outcome.bind_eq_ok_iff.mp hquery
  exact hvalid

/-- A list with a search query has a document query when every connective has two items with a
criteria to join. -/
theorem exists_documentQuery_iff_of_searchQuery (hread : Item.Read groups rules)
    (h : ∃ query, compiler.searchQuery rules = .ok query) :
    (∃ query, compiler.documentQuery rules = .ok query) ↔
      ∀ group ∈ Item.groupsOf groups, group.connectives ≠ [] →
        2 ≤ group.items.countP Item.hasCriteria := by
  have hvalid := validate_of_searchQuery h
  obtain ⟨hone, hsound⟩ := (exists_searchQuery_iff hvalid hread).mp h
  have hroots : groups.countP Item.hasCriteria ≤ 1 := hone ▸ List.countP_le_length
  rw [exists_documentQuery_iff hvalid hread, and_iff_left hroots]
  refine forall₂_congr fun group hgroup => ?_
  rw [group.isSound_hasCriteria_iff, and_iff_right (hsound group hgroup)]

/-- A list with a document query has a search query when it is a single group. -/
theorem exists_searchQuery_iff_of_documentQuery (hread : Item.Read groups rules)
    (h : ∃ query, compiler.documentQuery rules = .ok query) :
    (∃ query, compiler.searchQuery rules = .ok query) ↔ groups.length = 1 := by
  have hvalid := validate_of_documentQuery h
  obtain ⟨hsound, _⟩ := (exists_documentQuery_iff hvalid hread).mp h
  rw [exists_searchQuery_iff hvalid hread]
  exact and_iff_left fun group hgroup => (group.isSound_hasCriteria_iff.mp (hsound group hgroup)).1

/-- A list without empty groups has both queries or neither. -/
theorem exists_documentQuery_iff_searchQuery (hfull : ¬ HasEmptyGroup rules) :
    (∃ query, compiler.documentQuery rules = .ok query) ↔
      ∃ query, compiler.searchQuery rules = .ok query := by
  constructor
  · intro h
    have hvalid := validate_of_documentQuery h
    obtain ⟨groups, hread⟩ := Item.exists_read (checkOrder_of_validate hvalid)
    have hroots := ((exists_documentQuery_iff hvalid hread).mp h).2
    have hsome := List.length_pos_iff.mpr (hread.ne_nil (validate_eq_ok_iff.mp hvalid).1)
    rw [hread.countP_eq_length hfull] at hroots
    exact (exists_searchQuery_iff_of_documentQuery hread h).mpr (le_antisymm hroots hsome)
  · intro h
    have hvalid := validate_of_searchQuery h
    obtain ⟨groups, hread⟩ := Item.exists_read (checkOrder_of_validate hvalid)
    have hsound := ((exists_searchQuery_iff hvalid hread).mp h).2
    refine (exists_documentQuery_iff_of_searchQuery hread h).mpr fun group hgroup hne => ?_
    rw [hread.countP_items hfull hgroup]
    simpa using (hsound group hgroup).2 hne

/-- A comparison joined with an empty group can be searched for, but has no document query. -/
theorem queries_differ :
    let compiler : Compiler := ⟨⟨[("type", .ofStrings)]⟩, {}⟩
    let book : Criteria := ⟨"type", .equal, .value (.text "book"), false⟩
    let rules : List Rule := [.separator .opening, .separator .opening, .separator .closing,
      .logical .and, .criteria book, .separator .closing]
    compiler.documentQuery rules = .error (.emission .minimumCriteria) ∧
      compiler.searchQuery rules =
        .ok (.bool [] [.matchAll, .term "type.keyword" (.text "book")] [] []) ∧
      ¬ ((∃ query, compiler.documentQuery rules = .ok query) ↔
        ∃ query, compiler.searchQuery rules = .ok query) := by
  intro compiler book rules
  have hdocument : compiler.documentQuery rules = .error (.emission .minimumCriteria) := by cbv
  have hsearch : compiler.searchQuery rules =
      .ok (.bool [] [.matchAll, .term "type.keyword" (.text "book")] [] []) := by cbv
  refine ⟨hdocument, hsearch, fun hsame => ?_⟩
  obtain ⟨query, hquery⟩ := hsame.mpr ⟨_, hsearch⟩
  simp [hdocument] at hquery

/-- A list without empty groups has both queries or neither. A list with a query can be read as
groups, and however it is read: with a search query it has a document query when every connective has
two items with a criteria to join, and with a document query it has a search query when it is a single
group. -/
theorem queries_agree (compiler : Compiler) (rules : List Rule) :
    (¬ HasEmptyGroup rules → ((∃ query, compiler.documentQuery rules = .ok query) ↔
      ∃ query, compiler.searchQuery rules = .ok query)) ∧
    ((∃ query, compiler.documentQuery rules = .ok query) ∨
      (∃ query, compiler.searchQuery rules = .ok query) → ∃ groups, Item.Read groups rules) ∧
    ∀ groups, Item.Read groups rules →
      ((∃ query, compiler.searchQuery rules = .ok query) →
        ((∃ query, compiler.documentQuery rules = .ok query) ↔
          ∀ group ∈ Item.groupsOf groups, group.connectives ≠ [] →
            2 ≤ group.items.countP Item.hasCriteria)) ∧
      ((∃ query, compiler.documentQuery rules = .ok query) →
        ((∃ query, compiler.searchQuery rules = .ok query) ↔ groups.length = 1)) := by
  refine ⟨exists_documentQuery_iff_searchQuery, ?_, fun groups hread => ⟨?_, ?_⟩⟩
  · rintro (h | h)
    · exact Item.exists_read (checkOrder_of_validate (validate_of_documentQuery h))
    · exact Item.exists_read (checkOrder_of_validate (validate_of_searchQuery h))
  · exact exists_documentQuery_iff_of_searchQuery hread
  · exact exists_searchQuery_iff_of_documentQuery hread

/-- A lone comparison, and two comparisons beside an empty group. -/
theorem queries_agree_beside_empty :
    let compiler : Compiler := ⟨⟨[("type", .ofStrings)]⟩, {}⟩
    let book : Criteria := ⟨"type", .equal, .value (.text "book"), false⟩
    let disc : Criteria := ⟨"type", .equal, .value (.text "disc"), false⟩
    let lone : Item := .group none (.single (.criteria book))
    let item : Item := .group none (.joined (.criteria book) .or
      (.joined (.criteria disc) .or (.single .empty)))
    (¬ HasEmptyGroup lone.rules ∧ (∃ query, compiler.documentQuery lone.rules = .ok query) ∧
      ∃ query, compiler.searchQuery lone.rules = .ok query) ∧
    HasEmptyGroup item.rules ∧ (∃ query, compiler.searchQuery item.rules = .ok query) ∧
      ∃ query, compiler.documentQuery item.rules = .ok query := by
  intro compiler book disc lone item
  have hfull : ¬ HasEmptyGroup lone.rules := by decide
  have hdocument : compiler.documentQuery lone.rules =
      .ok (.fields [.mk "type" (.compare .equal (.text "book"))]) := by cbv
  have hread : Item.Read [item] item.rules := ⟨by simp [item, Item.isGroup], Item.rulesOf_single⟩
  have hsearch : compiler.searchQuery item.rules = .ok (.bool [] [] [
      .term "type.keyword" (.text "book"), .term "type.keyword" (.text "disc"), .matchAll] []) := by
    cbv
  refine ⟨⟨hfull, ⟨_, hdocument⟩, ?_⟩, by decide, ⟨_, hsearch⟩, ?_⟩
  · exact ((queries_agree compiler lone.rules).1 hfull).mp ⟨_, hdocument⟩
  · refine (((queries_agree compiler item.rules).2.2 [item] hread).1 ⟨_, hsearch⟩).mpr ?_
    simp [item, Item.groupsOf, Item.groups, Items.groups, Items.connectives, Items.toList,
      Item.hasCriteria, Item.rules, Rule.isCriteria]

end Compiler

end FilterRules
