import FilterRules.Compilation
import FilterRules.Proofs.Document.Outcome
import FilterRules.Proofs.Rule.Groups
import FilterRules.Proofs.Validity

/-!
# Which rule lists have a document query

Reduction drops a group that comes down to nothing, so that only items with a criteria count: an item
comes down to a member exactly when it has one. A connective then needs two such items, and the list
has to come down to one member at most, however many empty groups stand beside it. Each fault is
traced to a group that accounts for it.
-/

namespace FilterRules

open GroupContents (Fault)

/-- Connectives agree on nothing when there are none, and else on the one that all of them are. -/
theorem Connective.agreed_eq_ok {connectives : List Connective} {agreement : Option Connective}
    (h : agreed connectives = .ok agreement) :
    (agreement = none ↔ connectives = []) ∧
      ∀ connective ∈ agreement, ∀ found ∈ connectives, found = connective := by
  cases connectives with
  | nil =>
    obtain rfl : none = agreement := Except.ok.inj h
    simp
  | cons first others =>
    rw [agreed] at h
    split at h
    case isTrue hall =>
      obtain rfl : some first = agreement := Except.ok.inj h
      simpa using hall
    case isFalse => simp at h

/-- Connectives that do not agree are both of them. -/
theorem Connective.agreed_eq_error {connectives : List Connective} {error : CompileError}
    (h : agreed connectives = .error error) :
    error = .structural .mixedConnectives none ∧ .and ∈ connectives ∧ .or ∈ connectives := by
  cases connectives with
  | nil => simp [agreed] at h
  | cons first others =>
    rw [agreed] at h
    split at h
    case isTrue => simp at h
    case isFalse hdiffer =>
      obtain ⟨other, hother, hne⟩ : ∃ other ∈ others, other ≠ first := by simpa using hdiffer
      refine ⟨(Except.error.inj h).symm, ?_⟩
      cases first <;> cases other <;> simp_all

/-- Connectives agree on the same in any order. -/
theorem Connective.agreed_perm {connectives others : List Connective} {agreement : Option Connective}
    (h : connectives.Perm others) (hagreed : agreed connectives = .ok agreement) :
    agreed others = .ok agreement := by
  obtain ⟨hnone, hall⟩ := agreed_eq_ok hagreed
  cases agreement with
  | none =>
    obtain rfl := hnone.mp rfl
    rw [← h.nil_eq]
    rfl
  | some connective =>
    refine agreed_eq_some (fun found hfound => hall _ rfl found (h.mem_iff.mpr hfound)) ?_
    rintro rfl
    simpa using hnone.mpr h.eq_nil

/-- Members come down to something unless there are none, and a connective has two of them to join. -/
theorem Member.joined_eq_ok {schema : Schema} {connective : Option Connective}
    {members : List Member} {found : Option Member}
    (h : joined schema connective members = .ok found) :
    (found.isSome ↔ members ≠ []) ∧ (connective ≠ none → 2 ≤ members.length) := by
  cases connective with
  | none =>
    match members, h with
    | [], h =>
      obtain rfl : none = found := Except.ok.inj h
      simp
    | [member], h =>
      obtain rfl : some member = found := Except.ok.inj h
      simp
    | _ :: _ :: _, h => simp [joined] at h
  | some connective =>
    rw [joined] at h
    split at h
    case isTrue => simp at h
    case isFalse hmany =>
      obtain rfl : some _ = found := Except.ok.inj h
      have htwo : 2 ≤ members.length := by omega
      refine ⟨?_, fun _ => htwo⟩
      simpa using List.ne_nil_of_length_pos (by omega : 0 < members.length)

/-- Members that cannot be joined are too few for their connective, or too many for none. -/
theorem Member.joined_eq_error {schema : Schema} {connective : Option Connective}
    {members : List Member} {error : CompileError}
    (h : joined schema connective members = .error error) :
    (connective = none ∧ 2 ≤ members.length) ∨
      (connective ≠ none ∧ members.length < 2 ∧ error = .emission .minimumCriteria) := by
  cases connective with
  | none =>
    match members, h with
    | [], h => simp [joined] at h
    | [_], h => simp [joined] at h
    | _ :: _ :: _, _ => simp
  | some connective =>
    rw [joined] at h
    split at h
    case isTrue hfew => exact Or.inr ⟨by simp, hfew, (Except.error.inj h).symm⟩
    case isFalse => simp at h

/-- Items come down to members when each of them comes down to a member or to nothing. -/
theorem Items.members_eq_ok_iff {schema : Schema} {members : List Member} (items : Items) :
    items.members schema = .ok members ↔ ∃ founds,
      List.Forall₂ (fun item found => item.member? schema = .ok found) items.toList founds ∧
        members = founds.flatMap Option.toList := by
  induction items using Items.toList.induct generalizing members with
  | case1 item =>
    rw [Items.members, Outcome.map_eq_ok_iff, Items.toList]
    constructor
    · rintro ⟨found, hfound, rfl⟩
      exact ⟨[found], .cons hfound .nil, by simp⟩
    · rintro ⟨_, _ | ⟨hfound, _ | _⟩, rfl⟩
      exact ⟨_, hfound, by simp⟩
  | case2 item connective others ih =>
    rw [Items.members, Items.toList, Outcome.bind_eq_ok_iff]
    constructor
    · rintro ⟨rest, hrest, h⟩
      obtain ⟨found, hfound, h⟩ := Outcome.bind_eq_ok_iff.mp h
      obtain ⟨founds, hfounds, rfl⟩ := ih.mp hrest
      exact ⟨found :: founds, .cons hfound hfounds, (Except.ok.inj h).symm⟩
    · rintro ⟨_, _ | ⟨hfound, hfounds⟩, rfl⟩
      refine ⟨_, ih.mpr ⟨_, hfounds, rfl⟩, ?_⟩
      rw [hfound]
      rfl

/-- A group without connectives has a single item. -/
theorem Items.length_of_connectives {items : Items} (h : items.connectives = []) :
    items.toList.length = 1 := by
  cases items with
  | single item => rfl
  | joined item connective others => simp [Items.connectives] at h

variable {schema : Schema}

mutual

/-- An item comes down to a member when it has a criteria, and its groups are sound when it comes
down to anything at all. -/
theorem Item.member?_eq_ok : (item : Item) → {found : Option Member} →
    item.member? schema = .ok found →
    (found.isSome ↔ item.hasCriteria) ∧
      ∀ group ∈ item.groups, group.IsSound Item.hasCriteria
  | .criteria criteria, found, h => by
    rw [Item.member?] at h
    obtain ⟨clause, _, rfl⟩ := Outcome.map_eq_ok_iff.mp h
    simp [Item.hasCriteria, Item.rules, Rule.isCriteria, Item.groups]
  | .empty, found, h => by
    rw [Item.member?] at h
    obtain rfl : none = found := Except.ok.inj h
    simp [Item.hasCriteria, Item.rules, Rule.isCriteria, Item.groups, GroupContents.IsSound,
      GroupContents.IsMixed]
  | .group lead items, found, h => by
    rw [Item.member?] at h
    obtain ⟨members, hmembers, h⟩ := Outcome.bind_eq_ok_iff.mp h
    obtain ⟨connective, hagreed, h⟩ := Outcome.bind_eq_ok_iff.mp h
    obtain ⟨hlength, hsound⟩ := Items.members_eq_ok items hmembers
    obtain ⟨hnone, hall⟩ := Connective.agreed_eq_ok hagreed
    obtain ⟨hfound, hmany⟩ := Member.joined_eq_ok h
    constructor
    · rw [hfound, Item.hasCriteria_group, ← List.length_pos_iff, hlength, List.countP_pos_iff,
        List.any_eq_true]
    · refine List.forall_mem_cons.mpr ⟨⟨?_, fun hne => ?_⟩, hsound⟩
      · cases connective with
        | none => simp [GroupContents.IsMixed, hnone.mp rfl]
        | some connective => exact GroupContents.not_isMixed_of_forall (hall connective rfl)
      · rw [← hlength]
        exact hmany fun hconnective => hne (hnone.mp hconnective)

/-- Items come down to as many members as there are items with a criteria, and their groups are
sound then. -/
theorem Items.members_eq_ok : (items : Items) → {members : List Member} →
    items.members schema = .ok members →
    members.length = items.toList.countP Item.hasCriteria ∧
      ∀ group ∈ items.groups, group.IsSound Item.hasCriteria
  | .single item, members, h => by
    rw [Items.members] at h
    obtain ⟨found, hfound, rfl⟩ := Outcome.map_eq_ok_iff.mp h
    obtain ⟨hsome, hsound⟩ := Item.member?_eq_ok item hfound
    refine ⟨?_, hsound⟩
    cases found <;> simp_all [Items.toList]
  | .joined item connective others, members, h => by
    rw [Items.members] at h
    obtain ⟨rest, hrest, h⟩ := Outcome.bind_eq_ok_iff.mp h
    obtain ⟨found, hfound, h⟩ := Outcome.bind_eq_ok_iff.mp h
    obtain rfl : found.toList ++ rest = members := Except.ok.inj h
    obtain ⟨hsome, hsound⟩ := Item.member?_eq_ok item hfound
    obtain ⟨hlength, hsounds⟩ := Items.members_eq_ok others hrest
    refine ⟨?_, List.forall_mem_append.mpr ⟨hsound, hsounds⟩⟩
    cases found <;> simp_all [Items.toList]

end

mutual

/-- An item whose comparisons have clauses has a group that accounts for its fault. -/
theorem Item.fault_of_member? {error : CompileError} : (item : Item) →
    Rule.HaveClauses schema item.rules →
    item.member? schema = .error error → Fault Item.hasCriteria item.groups error
  | .criteria criteria, hclauses, h => by
    obtain ⟨clause, hclause⟩ := hclauses criteria (by simp [Item.rules])
    simp [Item.member?, hclause, Except.map] at h
  | .empty, _, h => by simp [Item.member?] at h
  | .group lead items, hclauses, h => by
    have hinner := hclauses.mono (Items.infix_group lead items).subset
    rw [Item.member?] at h
    rcases Outcome.bind_eq_error_iff.mp h with hmembers | ⟨members, hmembers, h⟩
    · exact (Items.fault_of_members items hinner hmembers).mono (List.subset_cons_self _ _)
    have hlength := (Items.members_eq_ok items hmembers).1
    rcases Outcome.bind_eq_error_iff.mp h with hagreed | ⟨connective, hagreed, hjoined⟩
    · obtain ⟨rfl, hmixed⟩ := Connective.agreed_eq_error hagreed
      exact .mixed none List.mem_cons_self hmixed
    have hnone := (Connective.agreed_eq_ok hagreed).1
    rcases Member.joined_eq_error hjoined with ⟨hconnective, hmany⟩ | ⟨hconnective, hfew, rfl⟩
    · -- Without a connective there is one item only, which comes down to one member at most.
      have hone := Items.length_of_connectives (List.append_eq_nil_iff.mp (hnone.mp hconnective)).2
      have hle : items.toList.countP Item.hasCriteria ≤ items.toList.length :=
        List.countP_le_length
      omega
    · exact .few List.mem_cons_self (fun hnil => hconnective (hnone.mpr hnil))
        (by simpa [← hlength] using hfew)

/-- Items whose comparisons have clauses have a group that accounts for their fault. -/
theorem Items.fault_of_members {error : CompileError} : (items : Items) →
    Rule.HaveClauses schema items.rules →
    items.members schema = .error error → Fault Item.hasCriteria items.groups error
  | .single item, hclauses, h => by
    rw [Items.members] at h
    exact Item.fault_of_member? item hclauses (Outcome.map_eq_error_iff.mp h)
  | .joined item connective others, hclauses, h => by
    have hothers := hclauses.mono (Items.infix_others item connective others).subset
    have hitem := hclauses.mono (Items.infix_first item connective others).subset
    rw [Items.members] at h
    rcases Outcome.bind_eq_error_iff.mp h with hrest | ⟨rest, _, h⟩
    · exact (Items.fault_of_members others hothers hrest).mono (List.subset_append_right _ _)
    rcases Outcome.bind_eq_error_iff.mp h with hfound | ⟨found, _, h⟩
    · exact (Item.fault_of_member? item hitem hfound).mono (List.subset_append_left _ _)
    · simp at h

end

namespace Item

variable {groups : List Item}

/-- Groups come down to as many members as there are groups with a criteria, and all of their groups
are sound then. -/
theorem membersOf_eq_ok {members : List Member} (h : membersOf schema groups = .ok members) :
    members.length = groups.countP hasCriteria ∧
      ∀ group ∈ groupsOf groups, group.IsSound hasCriteria := by
  induction groups generalizing members with
  | nil =>
    obtain rfl : [] = members := Except.ok.inj h
    simp [groupsOf]
  | cons first rest ih =>
    obtain ⟨others, hothers, h⟩ := Outcome.bind_eq_ok_iff.mp h
    obtain ⟨found, hfound, h⟩ := Outcome.bind_eq_ok_iff.mp h
    obtain rfl : found.toList ++ others = members := Except.ok.inj h
    obtain ⟨hsome, hsound⟩ := first.member?_eq_ok hfound
    obtain ⟨hlength, hsounds⟩ := ih hothers
    refine ⟨?_, List.forall_mem_append.mpr ⟨hsound, hsounds⟩⟩
    cases found <;> simp_all

/-- Groups whose comparisons have clauses have a group that accounts for their fault. -/
theorem fault_of_membersOf {error : CompileError}
    (hclauses : Rule.HaveClauses schema (rulesOf groups))
    (h : membersOf schema groups = .error error) : Fault hasCriteria (groupsOf groups) error := by
  induction groups with
  | nil => simp [membersOf] at h
  | cons first rest ih =>
    have hrules : rulesOf (first :: rest) = first.rules ++ rulesOf rest := rfl
    have hfirst := hclauses.mono (hrules ▸ List.subset_append_left _ _)
    have hrest := hclauses.mono (hrules ▸ List.subset_append_right _ _)
    rcases Outcome.bind_eq_error_iff.mp h with hothers | ⟨others, _, h⟩
    · exact (ih hrest hothers).mono (List.subset_append_right _ _)
    rcases Outcome.bind_eq_error_iff.mp h with hfound | ⟨found, _, h⟩
    · exact (first.fault_of_member? hfirst hfound).mono (List.subset_append_left _ _)
    · simp at h

end Item

namespace DocumentQuery

/-- There is a query of members when there is one of them at most. -/
theorem exists_ofMembers_iff {members : List Member} :
    (∃ query, ofMembers members = .ok query) ↔ members.length ≤ 1 := by
  match members with
  | [] => simp [ofMembers]
  | [_] => simp [ofMembers]
  | _ :: _ :: _ => simp [ofMembers]

/-- The only fault of members is that there are several of them. -/
theorem ofMembers_eq_error {members : List Member} {error : CompileError}
    (h : ofMembers members = .error error) :
    error = .emission .malformedExpression ∧ 1 < members.length := by
  match members, h with
  | [], h => simp [ofMembers] at h
  | [_], h => simp [ofMembers] at h
  | _ :: _ :: _, h => exact ⟨(Except.error.inj h).symm, by simp⟩

end DocumentQuery

namespace Compiler

variable {compiler : Compiler} {rules : List Rule} {groups : List Item}

/-- A list with a document query is valid. -/
theorem validate_of_documentQuery (h : ∃ query, compiler.documentQuery rules = .ok query) :
    validate rules compiler.schema = .ok () := by
  obtain ⟨query, hquery⟩ := h
  obtain ⟨⟨⟩, hvalid, _⟩ := Outcome.bind_eq_ok_iff.mp hquery
  exact hvalid

/-- The comparisons of a valid list have clauses once they are converted. -/
theorem haveClauses_of_validate (hvalid : validate rules compiler.schema = .ok ()) :
    Rule.HaveClauses compiler.schema
      (convertedRules rules compiler.schema compiler.settings false) :=
  fun criteria hcriteria =>
    (isReady_of_validate compiler.settings false hvalid criteria hcriteria).exists_clause

/-- The document query of a valid list is the one of its converted rules. -/
theorem documentQuery_eq_ofRules (hvalid : validate rules compiler.schema = .ok ()) :
    compiler.documentQuery rules = DocumentQuery.ofRules
      (convertedRules rules compiler.schema compiler.settings false) compiler.schema := by
  rw [documentQuery, hvalid, Outcome.ok_bind, emitDocument, convertRules_of_validate _ _ hvalid,
    Outcome.ok_bind]

/-- The document query of a valid list is the one of the members that its groups come down to. -/
theorem documentQuery_of_validate (hvalid : validate rules compiler.schema = .ok ())
    (hread : Item.Read groups rules) :
    compiler.documentQuery rules = (do
      let members ← Item.membersOf compiler.schema
        (Item.convertedGroups groups compiler.schema compiler.settings false)
      DocumentQuery.ofMembers members) := by
  have hclauses := haveClauses_of_validate hvalid
  have hconverted := hread.converted compiler.schema compiler.settings false
  rw [documentQuery_eq_ofRules hvalid]
  rw [← hconverted.2] at hclauses ⊢
  exact DocumentQuery.ofRules_eq_members hclauses

/-- A valid list without a document query has a group that accounts for it, or comes down to several
members. -/
theorem fault_of_documentQuery (hvalid : validate rules compiler.schema = .ok ())
    (hread : Item.Read groups rules) {error : CompileError}
    (h : compiler.documentQuery rules = .error error) :
    Fault Item.hasCriteria (Item.groupsOf groups) error ∨
      (error = .emission .malformedExpression ∧ 1 < groups.countP Item.hasCriteria) := by
  have hclauses := haveClauses_of_validate hvalid
  rw [← (hread.converted compiler.schema compiler.settings false).2] at hclauses
  rw [documentQuery_of_validate hvalid hread] at h
  rcases Outcome.bind_eq_error_iff.mp h with hmembers | ⟨members, hmembers, hquery⟩
  · exact Or.inl (Item.fault_of_convertedGroups Item.hasCriteria_map
      (Item.fault_of_membersOf hclauses hmembers))
  · obtain ⟨rfl, hmany⟩ := DocumentQuery.ofMembers_eq_error hquery
    rw [(Item.membersOf_eq_ok hmembers).1, Item.countP_convertedGroups] at hmany
    exact Or.inr ⟨rfl, hmany⟩

/-- A valid list has a document query when all of its groups are sound and one group on top has a
criteria at most. -/
theorem exists_documentQuery_iff (hvalid : validate rules compiler.schema = .ok ())
    (hread : Item.Read groups rules) :
    (∃ query, compiler.documentQuery rules = .ok query) ↔
      (∀ group ∈ Item.groupsOf groups, group.IsSound Item.hasCriteria) ∧
        groups.countP Item.hasCriteria ≤ 1 := by
  constructor
  · rintro ⟨query, hquery⟩
    rw [documentQuery_of_validate hvalid hread] at hquery
    obtain ⟨members, hmembers, hquery⟩ := Outcome.bind_eq_ok_iff.mp hquery
    obtain ⟨hlength, hsound⟩ := Item.membersOf_eq_ok hmembers
    have hone := DocumentQuery.exists_ofMembers_iff.mp ⟨query, hquery⟩
    rw [hlength, Item.countP_convertedGroups] at hone
    exact ⟨(Item.isSound_convertedGroups Item.hasCriteria_map).mp hsound, hone⟩
  · rintro ⟨hsound, hone⟩
    cases hresult : compiler.documentQuery rules with
    | ok query => exact ⟨query, rfl⟩
    | error error =>
      rcases fault_of_documentQuery hvalid hread hresult with hfault | ⟨_, hmany⟩
      · obtain ⟨group, hgroup, hnot⟩ := hfault.exists_not_sound
        exact absurd (hsound group hgroup) hnot
      · omega

/-- A valid list can be read as groups, and however it is read: it has a document query when no group
in it holds both connectives, every group with a connective holds at least two items with a criteria
in them, and one group on top has a criteria in it at most. It has no other faults than those
three. -/
theorem documentQuery_acceptance (hvalid : validate rules compiler.schema = .ok ()) :
    (∃ groups, Item.Read groups rules) ∧ ∀ groups, Item.Read groups rules →
      ((∃ query, compiler.documentQuery rules = .ok query) ↔
        (∀ group ∈ Item.groupsOf groups,
          ¬ (.and ∈ group.connectives ∧ .or ∈ group.connectives) ∧
            (group.connectives ≠ [] → 2 ≤ group.items.countP Item.hasCriteria)) ∧
          groups.countP Item.hasCriteria ≤ 1) ∧
      ∀ error, compiler.documentQuery rules = .error error →
        (∃ place, error = .structural .mixedConnectives place ∧
          ∃ group ∈ Item.groupsOf groups, .and ∈ group.connectives ∧ .or ∈ group.connectives) ∨
        (error = .emission .minimumCriteria ∧ ∃ group ∈ Item.groupsOf groups,
          group.connectives ≠ [] ∧ group.items.countP Item.hasCriteria < 2) ∨
        (error = .emission .malformedExpression ∧ 1 < groups.countP Item.hasCriteria) := by
  refine ⟨Item.exists_read (checkOrder_of_validate hvalid), fun groups hread => ⟨?_, ?_⟩⟩
  · exact exists_documentQuery_iff hvalid hread
  · intro error herror
    rcases fault_of_documentQuery hvalid hread herror with hfault | hmany
    · cases hfault with
      | mixed place hgroup hmixed => exact Or.inl ⟨place, rfl, _, hgroup, hmixed⟩
      | few hgroup hne hfew => exact Or.inr (Or.inl ⟨rfl, _, hgroup, hne, hfew⟩)
    · exact Or.inr (Or.inr hmany)

/-- Two groups without a comparison in front of the only group with one. -/
theorem documentQuery_acceptance_empty :
    let compiler : Compiler := ⟨⟨[("type", .ofStrings)]⟩, {}⟩
    let book : Criteria := ⟨"type", .equal, .value (.text "book"), false⟩
    let inner : Item := .group none (.single .empty)
    let outer : Item := .group none (.single (.criteria book))
    let rules := Item.rulesOf [.empty, inner, outer]
    validate rules compiler.schema = .ok () ∧
      ∃ query, compiler.documentQuery rules = .ok query := by
  intro compiler book inner outer rules
  have hvalid : validate rules compiler.schema = .ok () := by cbv
  have hread : Item.Read [.empty, inner, outer] rules :=
    ⟨by simp [inner, outer, Item.isGroup], rfl⟩
  refine ⟨hvalid, ((documentQuery_acceptance hvalid).2 _ hread).1.mpr ⟨?_, by decide⟩⟩
  simp [inner, outer, Item.groupsOf, Item.groups, Items.groups, Items.connectives]

end Compiler

end FilterRules
