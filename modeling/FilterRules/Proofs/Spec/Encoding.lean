import FilterRules.Proofs.Outcome
import FilterRules.Spec.Wire

/-!
# Specifications that are written and read again

A specification that was read from JSON is the same when it is written and read again. What could be lost
on the way is `null` in a field that holds any value, which is written but read as no field, and reading
leaves none. What could change is the kind of an entry, since a value is tried as a group before it is
tried as a rule; but a group is written with a name, and the object of a rule has none.
-/

namespace FilterRules

/-- A property of whatever an item is read as is one of all that a list of items is read as. -/
theorem Json.forall_mem_of_list? {α : Type} {item? : Json → Option α} {p : α → Prop} {value : Json}
    {results : List α} (h : value.list? item? = some results)
    (hitem : ∀ item result, item? item = some result → p result) : ∀ result ∈ results, p result := by
  cases value with
  | array items => exact Outcome.forall_mem_of_forall₂ (Outcome.mapM_eq_some_iff.mp h) hitem
  | _ => simp [list?] at h

namespace WireRule

variable {rule : WireRule} {value : Json}

/-- Whether no field of a rule holds `null`. -/
structure HasNoNull (rule : WireRule) : Prop where
  /-- The field `value` does not. -/
  value : rule.value ≠ some .null
  /-- The field `values` does not. -/
  values : rule.values ≠ some .null

/-- A field that is written is found under its key, if there is one. -/
theorem find?_ofWrites_field (asked key : String) (given : Option Json) :
    Dictionary.find? asked (Dictionary.ofWrites (field key given)) =
      if asked = key then given else none := by
  cases given with
  | some value => rfl
  | none => exact (ite_self none).symm

/-- The object of a rule holds the fields that the rule has, and no others. -/
theorem find?_members (rule : WireRule) : ∃ members, rule.toJson = .object members ∧
    Dictionary.find? "type" members = rule.kind.map .text ∧
    Dictionary.find? "attribute" members = rule.path.map .text ∧
    Dictionary.find? "relationship" members = rule.relationship.map .text ∧
    Dictionary.find? "value" members = rule.value ∧
    Dictionary.find? "values" members = rule.values ∧
    Dictionary.find? "name" members = none := by
  refine ⟨_, rfl, ?_, ?_, ?_, ?_, ?_, ?_⟩ <;>
    simp [Dictionary.find?_ofWrites_append, find?_ofWrites_field]

/-- A field with a string, or none, is read as it was written. -/
@[simp] theorem textField?_map_text (given : Option String) :
    textField? (given.map .text) = some given := by
  cases given <;> rfl

/-- A field keeps its value unless it holds `null`. -/
theorem valueField_eq_self_iff {given : Option Json} :
    valueField given = given ↔ given ≠ some .null := by
  rw [valueField.eq_def]
  split
  case h_1 => simp
  case h_2 hne => exact iff_of_true rfl hne

/-- A field that was read does not hold `null`. -/
theorem valueField_ne_null (given : Option Json) : valueField given ≠ some .null := by
  rw [valueField.eq_def]
  split
  case h_1 => simp
  case h_2 hne => exact hne

/-- A rule that is written and read again keeps everything but `null`. -/
theorem ofJson?_toJson (rule : WireRule) : ofJson? rule.toJson =
    some { rule with value := valueField rule.value, values := valueField rule.values } := by
  obtain ⟨members, hmembers, hkind, hpath, hrelationship, hvalue, hvalues, _⟩ := find?_members rule
  rw [hmembers, ofJson?, hkind, hpath, hrelationship, hvalue, hvalues]
  simp [ofFields?]

/-- A rule is read as it was written when no field of it holds `null`. -/
theorem ofJson?_toJson_iff : ofJson? rule.toJson = some rule ↔ rule.HasNoNull := by
  rw [ofJson?_toJson, Option.some.injEq]
  constructor
  · intro h
    exact ⟨valueField_eq_self_iff.mp (congrArg WireRule.value h),
      valueField_eq_self_iff.mp (congrArg WireRule.values h)⟩
  · intro h
    rw [valueField_eq_self_iff.mpr h.value, valueField_eq_self_iff.mpr h.values]

/-- Rules are read as they were written when no field of them holds `null`. -/
theorem mapM_ofJson?_toJson_iff {rules : List WireRule} :
    (rules.map toJson).mapM ofJson? = some rules ↔ ∀ rule ∈ rules, rule.HasNoNull := by
  rw [Outcome.mapM_map_eq_some_iff]
  exact forall₂_congr fun rule _ => ofJson?_toJson_iff

/-- A rule that was read from its fields has no `null` in them. -/
theorem hasNoNull_of_ofFields? {kind path relationship given several : Option Json}
    (h : ofFields? kind path relationship given several = some rule) : rule.HasNoNull := by
  simp only [ofFields?, Option.bind_eq_bind, Option.bind_eq_some_iff, Option.some.injEq] at h
  obtain ⟨_, _, _, _, _, _, rfl⟩ := h
  exact ⟨valueField_ne_null given, valueField_ne_null several⟩

/-- A rule that was read, from an object or from a list, has no field with `null`. -/
theorem hasNoNull_of_ofJson? (h : ofJson? value = some rule) : rule.HasNoNull := by
  cases value with
  | object members => exact hasNoNull_of_ofFields? h
  | array items =>
    rw [ofJson?] at h
    split at h
    case isTrue => exact hasNoNull_of_ofFields? h
    case isFalse => simp at h
  | _ => simp [ofJson?] at h

/-- The object of a rule has no name, so that it is read as no group. -/
theorem group_ofJson?_toJson (rule : WireRule) : RuleGroup.ofJson? rule.toJson = none := by
  obtain ⟨members, hmembers, _, _, _, _, _, hname⟩ := find?_members rule
  rw [hmembers, RuleGroup.ofJson?, hname]
  rfl

end WireRule

namespace RuleGroup

variable {named : RuleGroup} {value : Json}

/-- A group is read with the name and the type that it was written with, and with what its rules are read
as. -/
theorem ofJson?_toJson (named : RuleGroup) : ofJson? named.toJson =
    ((named.rules.map WireRule.toJson).mapM WireRule.ofJson?).map fun rules =>
      { named with rules := rules } := by
  rw [toJson, Json.ofWrites, ofJson?]
  simp [Dictionary.ofWrites, Dictionary.find?_insert_of_ne, ofFields?, Json.text?, Json.list?,
    Option.map_eq_bind, Function.comp_def]

/-- A group is read as it was written when no field of its rules holds `null`. -/
theorem ofJson?_toJson_iff :
    ofJson? named.toJson = some named ↔ ∀ rule ∈ named.rules, rule.HasNoNull := by
  rw [ofJson?_toJson, Option.map_eq_some_iff, ← WireRule.mapM_ofJson?_toJson_iff]
  constructor
  · rintro ⟨rules, hrules, hsame⟩
    obtain rfl : rules = named.rules := congrArg RuleGroup.rules hsame
    exact hrules
  · intro h
    exact ⟨named.rules, h, rfl⟩

/-- A group that was read from its fields has rules that were read. -/
theorem hasNoNull_of_ofFields? {name kind rules : Option Json}
    (h : ofFields? name kind rules = some named) : ∀ rule ∈ named.rules, rule.HasNoNull := by
  simp only [ofFields?, Option.bind_eq_bind, Option.bind_eq_some_iff, Option.some.injEq] at h
  obtain ⟨_, _, _, _, _, _, _, _, _, _, _, hread, rfl⟩ := h
  exact Json.forall_mem_of_list? hread fun _ _ => WireRule.hasNoNull_of_ofJson?

/-- A group that was read, from an object or from a list, has no rule with `null`. -/
theorem hasNoNull_of_ofJson? (h : ofJson? value = some named) :
    ∀ rule ∈ named.rules, rule.HasNoNull := by
  rw [ofJson?.eq_def] at h
  split at h
  · exact hasNoNull_of_ofFields? h
  · exact hasNoNull_of_ofFields? h
  · simp at h

end RuleGroup

namespace RuleEntry

variable {entry : RuleEntry} {value : Json}

/-- The rules that an entry consists of. -/
def wireRules : RuleEntry → List WireRule
  | .group named => named.rules
  | .rule single => [single]

/-- A value is read as a group when it describes one. -/
theorem ofJson?_eq_group_iff {named : RuleGroup} :
    ofJson? value = some (.group named) ↔ RuleGroup.ofJson? value = some named := by
  rw [ofJson?]
  cases RuleGroup.ofJson? value with
  | some found => simp
  | none => simp

/-- A value is read as a rule when it describes one and no group. -/
theorem ofJson?_eq_rule_iff {single : WireRule} : ofJson? value = some (.rule single) ↔
    RuleGroup.ofJson? value = none ∧ WireRule.ofJson? value = some single := by
  rw [ofJson?]
  cases RuleGroup.ofJson? value with
  | some found => simp
  | none => simp

/-- An entry is read as it was written, and as one of its kind, when its rules are. -/
theorem ofJson?_toJson_iff :
    ofJson? entry.toJson = some entry ↔ ∀ rule ∈ entry.wireRules, rule.HasNoNull := by
  cases entry with
  | group named => exact ofJson?_eq_group_iff.trans RuleGroup.ofJson?_toJson_iff
  | rule single =>
    rw [toJson, ofJson?_eq_rule_iff, and_iff_right (WireRule.group_ofJson?_toJson single), wireRules,
      List.forall_mem_singleton, WireRule.ofJson?_toJson_iff]

/-- An entry that was read has no rule with `null`. -/
theorem hasNoNull_of_ofJson? (h : ofJson? value = some entry) :
    ∀ rule ∈ entry.wireRules, rule.HasNoNull := by
  cases entry with
  | group named => exact RuleGroup.hasNoNull_of_ofJson? (ofJson?_eq_group_iff.mp h)
  | rule single =>
    exact List.forall_mem_singleton.mpr (WireRule.hasNoNull_of_ofJson? (ofJson?_eq_rule_iff.mp h).2)

end RuleEntry

namespace QuerySpec

variable {spec : QuerySpec} {value : Json}

/-- The rules of a specification, those of its groups included. -/
def wireRules (spec : QuerySpec) : List WireRule := spec.entries.flatMap RuleEntry.wireRules

/-- The fields to return are read as they were written, also when none are named. -/
theorem projectionField?_names (projection : Option (List String)) :
    projectionField? (projection.map fun names => .array (names.map .text)) = some projection := by
  cases projection with
  | none => rfl
  | some names =>
    have hnames : (names.map Json.text).mapM Json.text? = some names :=
      Outcome.mapM_map_eq_some_iff.mpr fun name _ => rfl
    rw [Option.map_some, projectionField?, Json.list?, hnames, Option.map_some]
    simp

/-- The object of a specification holds its type, its entries and the fields to return, if they are
named. -/
theorem find?_members (spec : QuerySpec) : ∃ members, spec.toJson = .object members ∧
    Dictionary.find? "type" members = some (.text spec.productType) ∧
    Dictionary.find? "rules" members = some (.array (spec.entries.map RuleEntry.toJson)) ∧
    Dictionary.find? "attributes" members =
      spec.projection.map fun names => .array (names.map .text) := by
  refine ⟨_, rfl, ?_, ?_, ?_⟩ <;> cases spec.projection <;>
    simp [Dictionary.ofWrites, Dictionary.find?_insert_of_ne, Dictionary.find?]

/-- A specification is read as it was written when no field of its rules holds `null`. -/
theorem ofJson?_toJson_iff :
    ofJson? spec.toJson = some spec ↔ ∀ rule ∈ spec.wireRules, rule.HasNoNull := by
  obtain ⟨members, hmembers, hkind, hrules, hprojection⟩ := find?_members spec
  have hentries : (spec.entries.map RuleEntry.toJson).mapM RuleEntry.ofJson? = some spec.entries ↔
      ∀ rule ∈ spec.wireRules, rule.HasNoNull := by
    rw [Outcome.mapM_map_eq_some_iff, QuerySpec.wireRules, List.forall_mem_flatMap]
    exact forall₂_congr fun entry _ => RuleEntry.ofJson?_toJson_iff
  rw [hmembers, ofJson?, hkind, hrules, hprojection, ← hentries]
  simp only [ofFields?, Json.text?, Json.list?, projectionField?_names, Option.bind_eq_bind,
    Option.bind_some, Option.bind_eq_some_iff, Option.some.injEq]
  constructor
  · rintro ⟨entries, hread, hsame⟩
    obtain rfl : entries = spec.entries := congrArg QuerySpec.entries hsame
    exact hread
  · intro h
    exact ⟨spec.entries, h, rfl⟩

/-- A specification that was read from its fields has entries that were read. -/
theorem hasNoNull_of_ofFields? {kind rules projection : Option Json}
    (h : ofFields? kind rules projection = some spec) : ∀ rule ∈ spec.wireRules, rule.HasNoNull := by
  simp only [ofFields?, Option.bind_eq_bind, Option.bind_eq_some_iff, Option.some.injEq] at h
  obtain ⟨_, _, _, _, _, _, _, hread, _, _, rfl⟩ := h
  rw [QuerySpec.wireRules, List.forall_mem_flatMap]
  exact Json.forall_mem_of_list? hread fun _ _ => RuleEntry.hasNoNull_of_ofJson?

/-- A specification that was read, from an object or from a list, has no rule with `null`. -/
theorem hasNoNull_of_ofJson? (h : ofJson? value = some spec) :
    ∀ rule ∈ spec.wireRules, rule.HasNoNull := by
  rw [ofJson?.eq_def] at h
  split at h
  · exact hasNoNull_of_ofFields? h
  · exact hasNoNull_of_ofFields? h
  · exact hasNoNull_of_ofFields? h
  · simp at h

/-- Whatever a specification was read from, with lists in place of objects or with unknown fields, it is
read again from what is written for it: every entry as one of its kind, every rule with its fields, and the
fields to return as they were named, or not. -/
theorem ofJson?_toJson_of_ofJson? (h : ofJson? value = some spec) :
    ofJson? spec.toJson = some spec :=
  ofJson?_toJson_iff.mpr (hasNoNull_of_ofJson? h)

/-- Lists stand for the specification, a group and its rules; the object beside the group has all of its
fields but a name, so that it is a rule, and keeps the `null` inside the value of a field. -/
theorem ofJson?_toJson_of_ofJson?_lists :
    let price : Json := .array [.text "criteria", .text "price", .text "GT", .bool true, .null]
    let named : Json := .array [.text "stock", .text "group", .array [price, .array []]]
    let unit : Json := .object [("unit", .null)]
    let unnamed : Json := .object
      [("attribute", .null), ("rules", .array []), ("type", .text "group"), ("values", unit)]
    let spec : QuerySpec := ⟨"book", [
      .group ⟨"stock", "group",
        [⟨some "criteria", some "price", some "GT", some (.bool true), none⟩, {}]⟩,
      .rule { kind := some "group", values := some unit }], none⟩
    ofJson? (.array [.text "book", .array [named, unnamed], .null]) = some spec ∧
      ofJson? spec.toJson = some spec := by
  intro price named unit unnamed spec
  have hread : ofJson? (.array [.text "book", .array [named, unnamed], .null]) = some spec := rfl
  exact ⟨hread, ofJson?_toJson_of_ofJson? hread⟩

end QuerySpec

end FilterRules
