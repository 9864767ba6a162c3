import FilterRules.Proofs.Rule.Decoding
import FilterRules.Rule.Order
import FilterRules.Rule.Tree
import FilterRules.Spec.Basic

/-!
# What named groups are flattened to

Named groups become one rule list: the rules of each group stand between two marks, the enclosed
groups are joined by `AND`, and two marks stand around all of them. The list is decoded exactly when
every group is, and its typed form is made from the typed forms of the groups in the same way.
-/

namespace FilterRules

/-- Typed rules between two marks. -/
def Rule.enclosed (rules : List Rule) : List Rule :=
  .separator .opening :: (rules ++ [.separator .closing])

/-- Typed rules, each list between two marks of its own, joined by `AND`. -/
def Rule.conjoined (bodies : List (List Rule)) : List Rule :=
  [.logical .and].intercalate (bodies.map enclosed)

namespace Rule

/-- One list alone is joined with nothing. -/
theorem conjoined_single (body : List Rule) : conjoined [body] = enclosed body := by
  rw [conjoined, List.map_singleton, List.intercalate_singleton]

/-- A list in front of others, of which there is one at least. -/
theorem conjoined_cons_cons (first second : List Rule) (rest : List (List Rule)) :
    conjoined (first :: second :: rest) =
      enclosed first ++ .logical .and :: conjoined (second :: rest) := by
  simp [conjoined]

end Rule

namespace RuleGroup

/-- The typed rules of a group, without marks around them. -/
def decoded (named : RuleGroup) : Except CompileError (List Rule) :=
  WireRule.decodeFrom 0 named.rules

/-- The tree of a group on its own. -/
def tree (named : RuleGroup) : Except CompileError Tree := do
  let rules ← named.decoded
  Tree.ofRules (Rule.enclosed rules)

/-- Whether the rules of a group stand in order between two marks. -/
def IsOrdered (named : RuleGroup) : Prop :=
  ∃ rules, named.decoded = .ok rules ∧ checkOrder (Rule.enclosed rules) = .ok ()

variable {named : RuleGroup} {body : List Rule} {child : Tree}

/-- The tree of a group whose typed rules are known. -/
theorem tree_eq (h : named.decoded = .ok body) : named.tree = Tree.ofRules (Rule.enclosed body) := by
  rw [tree, h, Outcome.ok_bind]

/-- The order of a group whose typed rules are known. -/
theorem isOrdered_iff (h : named.decoded = .ok body) :
    named.IsOrdered ↔ checkOrder (Rule.enclosed body) = .ok () := by
  simp [IsOrdered, h]

end RuleGroup

namespace RuleEntry

/-- Groups alone are entries without rules. -/
theorem rules_map_group (groups : List RuleGroup) : rules (groups.map .group) = [] := by
  induction groups with
  | nil => rfl
  | cons named rest ih => exact ih

/-- The groups of entries that are groups alone. -/
theorem groups_map_group (named : List RuleGroup) : groups (named.map .group) = named := by
  induction named with
  | nil => rfl
  | cons first rest ih => rw [List.map_cons, groups, ih]

/-- The enclosed rules of groups, joined by `AND`. -/
def conjoined (named : List RuleGroup) : List WireRule :=
  [.logical .and].intercalate (named.map fun group => enclosed group.rules)

/-- One group alone is joined with nothing. -/
theorem conjoined_single (named : RuleGroup) : conjoined [named] = enclosed named.rules := by
  rw [conjoined, List.map_singleton, List.intercalate_singleton]

/-- A group in front of others, of which there is one at least. -/
theorem conjoined_cons_cons (first second : RuleGroup) (rest : List RuleGroup) :
    conjoined (first :: second :: rest) =
      enclosed first.rules ++ ([.logical .and] ++ conjoined (second :: rest)) := by
  simp [conjoined]

/-- Groups are joined when all of them have the type of a group. -/
theorem joined_eq_ok_iff {between : List WireRule} {first : RuleGroup} {rest : List RuleGroup}
    {wire : List WireRule} : joined between (first :: rest) = .ok wire ↔
      (∀ named ∈ first :: rest, named.kind = RuleGroup.groupKind) ∧
        wire = between ++ conjoined (first :: rest) := by
  induction rest generalizing between first wire with
  | nil =>
    rw [joined]
    by_cases hkind : first.kind = RuleGroup.groupKind
    · simp [hkind, joined, conjoined_single, eq_comm]
    · simp [hkind]
  | cons second rest ih =>
    rw [joined]
    by_cases hkind : first.kind = RuleGroup.groupKind
    · rw [if_pos hkind, Outcome.bind_eq_ok_iff]
      constructor
      · rintro ⟨others, hothers, h⟩
        obtain ⟨hkinds, rfl⟩ := ih.mp hothers
        refine ⟨List.forall_mem_cons.mpr ⟨hkind, hkinds⟩, (Except.ok.inj h).symm.trans ?_⟩
        rw [conjoined_cons_cons, List.append_assoc]
      · rintro ⟨hkinds, rfl⟩
        refine ⟨_, ih.mpr ⟨(List.forall_mem_cons.mp hkinds).2, rfl⟩, ?_⟩
        rw [conjoined_cons_cons, Outcome.pure_eq_ok, List.append_assoc]
    · simp [hkind]

/-- Groups are flattened when all of them have the type of a group. -/
theorem flatten_groups_eq_ok_iff {groups : List RuleGroup} (hne : groups ≠ [])
    {wire : List WireRule} : flatten (groups.map .group) = .ok wire ↔
      (∀ named ∈ groups, named.kind = RuleGroup.groupKind) ∧ wire = enclosed (conjoined groups) := by
  obtain ⟨first, rest, rfl⟩ := List.exists_cons_of_ne_nil hne
  rw [flatten, groups_map_group, rules_map_group, if_neg (by simp), if_pos (by simp),
    Outcome.map_eq_ok_iff]
  simp only [joined_eq_ok_iff, List.nil_append]
  constructor
  · rintro ⟨_, ⟨hkinds, rfl⟩, rfl⟩
    exact ⟨hkinds, rfl⟩
  · rintro ⟨hkinds, rfl⟩
    exact ⟨_, ⟨hkinds, rfl⟩, rfl⟩

end RuleEntry

namespace WireRule

variable {index : Nat} {rules : List Rule}

/-- The parts of a list are decoded each on its own. -/
theorem decodeFrom_append_eq_ok_iff {front back : List WireRule} :
    decodeFrom index (front ++ back) = .ok rules ↔ ∃ first second,
      decodeFrom 0 front = .ok first ∧ decodeFrom 0 back = .ok second ∧
        rules = first ++ second := by
  simp only [decodeFrom_eq_ok_iff]
  constructor
  · intro h
    have hfront := List.forall₂_take front.length h
    have hback := List.forall₂_drop front.length h
    rw [List.take_left] at hfront
    rw [List.drop_left] at hback
    exact ⟨_, _, hfront, hback, (List.take_append_drop _ _).symm⟩
  · rintro ⟨first, second, hfirst, hsecond, rfl⟩
    exact List.rel_append hfirst hsecond

/-- One rule alone is decoded. -/
theorem decodeFrom_single_eq_ok_iff {rule : WireRule} {decoded : Rule}
    (h : rule.decode 0 = .ok decoded) :
    decodeFrom index [rule] = .ok rules ↔ rules = [decoded] := by
  rw [decodeFrom, decode_place index h]
  simp [decodeFrom, eq_comm]

/-- Rules between two marks are decoded as typed rules between two marks. -/
theorem decodeFrom_enclosed_eq_ok_iff {wire : List WireRule} :
    decodeFrom index (RuleEntry.enclosed wire) = .ok rules ↔
      ∃ body, decodeFrom 0 wire = .ok body ∧ rules = Rule.enclosed body := by
  have hparts : RuleEntry.enclosed wire =
      [separator .opening] ++ (wire ++ [separator .closing]) := rfl
  simp only [hparts, decodeFrom_append_eq_ok_iff,
    decodeFrom_single_eq_ok_iff (decode_separator _)]
  constructor
  · rintro ⟨_, _, rfl, ⟨body, _, hbody, rfl, rfl⟩, rfl⟩
    exact ⟨body, hbody, rfl⟩
  · rintro ⟨body, hbody, rfl⟩
    exact ⟨_, _, rfl, ⟨body, _, hbody, rfl, rfl⟩, rfl⟩

/-- Joined groups are decoded group by group. -/
theorem decodeFrom_conjoined_eq_ok_iff {first : RuleGroup} {rest : List RuleGroup} :
    decodeFrom index (RuleEntry.conjoined (first :: rest)) = .ok rules ↔ ∃ bodies,
      List.Forall₂ (fun named body => named.decoded = .ok body) (first :: rest) bodies ∧
        rules = Rule.conjoined bodies := by
  induction rest generalizing first index rules with
  | nil =>
    rw [RuleEntry.conjoined_single, decodeFrom_enclosed_eq_ok_iff]
    constructor
    · rintro ⟨body, hbody, rfl⟩
      exact ⟨[body], .cons hbody .nil, (Rule.conjoined_single body).symm⟩
    · rintro ⟨bodies, hbodies, rfl⟩
      obtain ⟨body, others, hbody, hothers, rfl⟩ := List.forall₂_cons_left_iff.mp hbodies
      obtain rfl := List.forall₂_nil_left_iff.mp hothers
      exact ⟨body, hbody, Rule.conjoined_single body⟩
  | cons second rest ih =>
    rw [RuleEntry.conjoined_cons_cons, decodeFrom_append_eq_ok_iff]
    simp only [decodeFrom_append_eq_ok_iff, decodeFrom_enclosed_eq_ok_iff, ih,
      decodeFrom_single_eq_ok_iff (decode_logical .and)]
    constructor
    · rintro ⟨_, _, ⟨body, hbody, rfl⟩, ⟨_, _, rfl, ⟨bodies, hbodies, rfl⟩, rfl⟩, rfl⟩
      cases hbodies with
      | cons hsecond hrest =>
        exact ⟨_, .cons hbody (.cons hsecond hrest), (Rule.conjoined_cons_cons _ _ _).symm⟩
    · rintro ⟨bodies, hbodies, rfl⟩
      obtain ⟨body, others, hbody, hothers, rfl⟩ := List.forall₂_cons_left_iff.mp hbodies
      obtain ⟨next, last, hnext, hlast, rfl⟩ := List.forall₂_cons_left_iff.mp hothers
      exact ⟨_, _, ⟨body, hbody, rfl⟩, ⟨_, _, rfl, ⟨_, hothers, rfl⟩, rfl⟩,
        Rule.conjoined_cons_cons body next last⟩

end WireRule

/-- The typed rules that named groups are flattened to: the typed rules of each group between two
marks, joined by `AND`, between two marks. -/
theorem RuleEntry.decodeAll_flatten_eq_ok_iff {groups : List RuleGroup} (hne : groups ≠ [])
    {rules : List Rule} :
    (∃ wire, RuleEntry.flatten (groups.map .group) = .ok wire ∧
        WireRule.decodeAll wire = .ok rules) ↔
      (∀ named ∈ groups, named.kind = RuleGroup.groupKind) ∧ ∃ bodies,
        List.Forall₂ (fun named body => named.decoded = .ok body) groups bodies ∧
          rules = Rule.enclosed (Rule.conjoined bodies) := by
  obtain ⟨first, rest, rfl⟩ := List.exists_cons_of_ne_nil hne
  have hdecode : WireRule.decodeAll (RuleEntry.enclosed (RuleEntry.conjoined (first :: rest))) =
      WireRule.decodeFrom 0 (RuleEntry.enclosed (RuleEntry.conjoined (first :: rest))) := rfl
  simp only [RuleEntry.flatten_groups_eq_ok_iff hne]
  constructor
  · rintro ⟨_, ⟨hkinds, rfl⟩, h⟩
    rw [hdecode, WireRule.decodeFrom_enclosed_eq_ok_iff] at h
    obtain ⟨_, hbody, rfl⟩ := h
    obtain ⟨bodies, hbodies, rfl⟩ := WireRule.decodeFrom_conjoined_eq_ok_iff.mp hbody
    exact ⟨hkinds, bodies, hbodies, rfl⟩
  · rintro ⟨hkinds, bodies, hbodies, rfl⟩
    refine ⟨_, ⟨hkinds, rfl⟩, ?_⟩
    rw [hdecode, WireRule.decodeFrom_enclosed_eq_ok_iff]
    exact ⟨_, WireRule.decodeFrom_conjoined_eq_ok_iff.mpr ⟨bodies, hbodies, rfl⟩, rfl⟩

end FilterRules
