import FilterRules.Document.Clause
import FilterRules.Proofs.Conversion
import FilterRules.Proofs.Rule.Groups
import FilterRules.Validity

/-!
# What validity gives

A criteria is valid exactly when its operand goes with its relationship and it can be converted,
whatever the conversion is for. The rules of a valid list can therefore be converted, and a criteria
that comes out of a conversion has all that a query asks of it: an operand of the right shape, an
attribute that is a path, and a selection whose value has a literal.
-/

namespace FilterRules

variable {schema : Schema} {settings : Settings} {criteria result : Criteria}
  {declared : AttributeType} {rule : Nat} {forSearch : Bool} {rules : List Rule}

/-- An operand can be converted when its literals can. -/
theorem Operand.exists_convertsTo_iff (operand : Operand) :
    (∃ other, operand.ConvertsTo declared other) ↔
      ∃ others, List.Forall₂ (fun literal other => literal.convert declared = .ok other)
        operand.literals others := by
  constructor
  · rintro ⟨_, hconvert⟩
    cases hconvert with
    | value h => exact ⟨_, .cons h .nil⟩
    | values h => exact ⟨_, h⟩
  · rintro ⟨others, hothers⟩
    cases operand with
    | value literal =>
      obtain ⟨other, _, hother, _⟩ := List.forall₂_cons_left_iff.mp hothers
      exact ⟨.value other, .value hother⟩
    | values literals => exact ⟨.values others, .values hothers⟩

/-- The literal of a selection in a query is that of the path. -/
theorem AttributePath.emittedFilter_eq_ok_iff {path : AttributePath} {found : Option Literal} :
    path.emittedFilter schema = .ok found ↔ path.filterLiteral schema = .ok found := by
  rw [emittedFilter]
  cases path.filterLiteral schema <;> simp

namespace Criteria

/-- A conversion keeps the shape of the operand. -/
theorem hasShape_of_convertsTo {operand : Operand}
    (h : criteria.operand.ConvertsTo declared operand) {exactMatch : Bool} :
    hasShape { criteria with operand, exactMatch } = criteria.hasShape := by
  obtain ⟨field, relationship, before, flag⟩ := criteria
  cases h with
  | value => rfl
  | @values literals others hall =>
    have hempty : others.isEmpty = literals.isEmpty := by cases hall <;> rfl
    simp [hasShape, hempty]

/-- A criteria is valid when its operand has the right shape and it can be converted. -/
theorem check_eq_ok_iff (settings : Settings) (forSearch : Bool) :
    criteria.check rule schema = .ok () ↔
      criteria.hasShape ∧ ∃ result, criteria.convert 0 schema settings forSearch = .ok result := by
  cases hshape : criteria.hasShape with
  | false => simp [check, hshape]
  | true =>
    simp only [check, hshape, Bool.not_true, Bool.false_eq_true, if_false, true_and]
    constructor
    · intro h
      obtain ⟨declared, hdeclared, h⟩ := Outcome.bind_eq_ok_iff.mp h
      obtain ⟨others, hothers, h⟩ := Outcome.bind_eq_ok_iff.mp h
      obtain ⟨path, hpath, hlookup⟩ := Schema.resolve_eq_ok_iff.mp hdeclared
      obtain ⟨path', literal, hpath', hliteral⟩ := checkFilter_eq_ok_iff.mp h
      obtain rfl : path = path' := Option.some.inj (hpath.symm.trans hpath')
      obtain ⟨operand, hoperand⟩ := (Operand.exists_convertsTo_iff criteria.operand).mpr
        ⟨others, convertLiterals_eq_ok_iff.mp hothers⟩
      exact ⟨_, convert_eq_ok_iff.mpr
        ⟨path, declared, literal, operand, hpath, hlookup, hliteral, hoperand, rfl⟩⟩
    · rintro ⟨result, h⟩
      obtain ⟨path, declared, literal, operand, hpath, hlookup, hliteral, hoperand, _⟩ :=
        convert_eq_ok_iff.mp h
      obtain ⟨others, hothers⟩ := (Operand.exists_convertsTo_iff criteria.operand).mp
        ⟨operand, hoperand⟩
      rw [Schema.resolve_eq_ok_iff.mpr ⟨path, hpath, hlookup⟩, Outcome.ok_bind,
        convertLiterals_eq_ok_iff.mpr hothers, Outcome.ok_bind]
      exact checkFilter_eq_ok_iff.mpr ⟨path, literal, hpath, hliteral⟩

/-- What a query asks of a criteria. -/
structure IsReady (criteria : Criteria) (schema : Schema) : Prop where
  /-- The operand goes with the relationship. -/
  shape : criteria.hasShape
  /-- The attribute is a path, and its selection has a literal. -/
  path : ∃ path literal, AttributePath.parse? criteria.path = some path ∧
    path.filterLiteral schema = .ok literal

/-- A criteria of the right shape is ready once it is converted. -/
theorem isReady_of_convert (hshape : criteria.hasShape)
    (h : criteria.convert rule schema settings forSearch = .ok result) :
    result.IsReady schema := by
  obtain ⟨path, declared, literal, operand, hpath, _, hliteral, hoperand, rfl⟩ :=
    convert_eq_ok_iff.mp h
  exact ⟨(hasShape_of_convertsTo hoperand).trans hshape, path, literal, hpath, hliteral⟩

/-- A criteria of the right shape puts a condition on its field. -/
theorem exists_condition (hshape : criteria.hasShape) :
    ∃ condition, criteria.condition = .ok condition := by
  obtain ⟨field, relationship, operand, exactMatch⟩ := criteria
  cases operand <;> cases relationship <;>
    simp_all [hasShape, Relationship.isSet, condition, Relationship.positive, Relationship.test,
      Test.relationship, Relationship.isNegated, scalar, several, Except.map]

/-- The path of a ready criteria has a literal for its selection in queries. -/
theorem IsReady.exists_emittedFilter (h : criteria.IsReady schema) :
    ∃ path literal, AttributePath.parse? criteria.path = some path ∧
      path.emittedFilter schema = .ok literal := by
  obtain ⟨path, literal, hpath, hliteral⟩ := h.path
  exact ⟨path, literal, hpath, AttributePath.emittedFilter_eq_ok_iff.mpr hliteral⟩

/-- A ready criteria has a clause. -/
theorem IsReady.exists_clause (h : criteria.IsReady schema) :
    ∃ clause, criteria.clause schema = .ok clause := by
  obtain ⟨condition, hcondition⟩ := exists_condition h.shape
  obtain ⟨path, literal, hpath, hliteral⟩ := h.exists_emittedFilter
  rw [clause, hcondition, Outcome.ok_bind, AttributePath.parseAt_eq_ok_iff.mpr hpath,
    Outcome.ok_bind]
  cases path with
  | plain segments => exact ⟨_, rfl⟩
  | filtered array key value element =>
    simp only [hliteral, Outcome.ok_bind]
    exact ⟨_, rfl⟩

end Criteria

/-- The criteria of a list are checked each on its own. -/
theorem checkCriteriaFrom_eq_ok_iff {index : Nat} :
    checkCriteriaFrom index schema rules = .ok () ↔
      ∀ criteria, Rule.criteria criteria ∈ rules → criteria.check 0 schema = .ok () := by
  induction rules generalizing index with
  | nil => simp [checkCriteriaFrom]
  | cons rule rules ih =>
    cases rule with
    | separator mark => simpa [checkCriteriaFrom] using ih
    | logical connective => simpa [checkCriteriaFrom] using ih
    | criteria single =>
      have hplace : single.check index schema = .ok () ↔ single.check 0 schema = .ok () := by
        rw [Criteria.check_eq_ok_iff {} false, Criteria.check_eq_ok_iff {} false]
      rw [checkCriteriaFrom, Outcome.bind_eq_ok_iff]
      simp [ih, hplace]

/-- A list is valid when it is not empty, its criteria are valid and its rules stand in order. -/
theorem validate_eq_ok_iff : validate rules schema = .ok () ↔
    rules ≠ [] ∧ (∀ criteria, Rule.criteria criteria ∈ rules → criteria.check 0 schema = .ok ()) ∧
      checkOrder rules = .ok () := by
  cases rules with
  | nil => simp [validate]
  | cons first rest =>
    have hnext : validate (first :: rest) schema = (do
        checkCriteriaFrom 0 schema (first :: rest)
        checkOrder (first :: rest)) := rfl
    rw [hnext, Outcome.bind_eq_ok_iff]
    constructor
    · rintro ⟨⟨⟩, hcheck, horder⟩
      exact ⟨by simp, checkCriteriaFrom_eq_ok_iff.mp hcheck, horder⟩
    · rintro ⟨_, hcheck, horder⟩
      exact ⟨(), checkCriteriaFrom_eq_ok_iff.mpr hcheck, horder⟩

/-- A valid rule list stands in order. -/
theorem checkOrder_of_validate (h : validate rules schema = .ok ()) : checkOrder rules = .ok () :=
  (validate_eq_ok_iff.mp h).2.2

/-- A valid list stays valid when each comparison is changed to one that is valid. -/
theorem validate_map {change : Criteria → Criteria} (h : validate rules schema = .ok ())
    (hchange : ∀ criteria, Rule.criteria criteria ∈ rules →
      (change criteria).check 0 schema = .ok ()) :
    validate (rules.map (Rule.map change)) schema = .ok () := by
  obtain ⟨hne, _, horder⟩ := validate_eq_ok_iff.mp h
  refine validate_eq_ok_iff.mpr ⟨by simpa using hne, ?_, (checkOrder_map change rules).trans horder⟩
  intro criteria hcriteria
  obtain ⟨before, hbefore, rfl⟩ := Rule.criteria_mem_map.mp hcriteria
  exact hchange before hbefore

/-- A list can be converted when its criteria can. -/
theorem exists_convertFrom {index : Nat}
    (h : ∀ criteria, Rule.criteria criteria ∈ rules →
      ∃ result, criteria.convert 0 schema settings forSearch = .ok result) :
    ∃ others, convertFrom index schema settings forSearch rules = .ok others := by
  induction rules generalizing index with
  | nil => exact ⟨[], rfl⟩
  | cons rule rules ih =>
    obtain ⟨others, hothers⟩ :
        ∃ others, convertFrom (index + 1) schema settings forSearch rules = .ok others :=
      ih fun criteria hcriteria => h criteria (by simp [hcriteria])
    cases rule with
    | separator mark => exact ⟨.separator mark :: others, by simp [convertFrom, hothers]⟩
    | logical connective => exact ⟨.logical connective :: others, by simp [convertFrom, hothers]⟩
    | criteria single =>
      obtain ⟨result, hresult⟩ := h single (by simp)
      have hplace := Criteria.convert_place index hresult
      exact ⟨.criteria result :: others, by simp [convertFrom, hothers, hplace]⟩

/-- The rules of a list with converted criteria. -/
def convertedRules (rules : List Rule) (schema : Schema) (settings : Settings) (forSearch : Bool) :
    List Rule :=
  rules.map (Rule.map fun criteria => criteria.converted schema settings forSearch)

namespace Item

/-- Groups with converted criteria. -/
def convertedGroups (groups : List Item) (schema : Schema) (settings : Settings)
    (forSearch : Bool) : List Item :=
  groups.map (Item.map fun criteria => criteria.converted schema settings forSearch)

variable {groups : List Item} {counts : Item → Bool}

/-- Groups that a list is read as are, once converted, what its converted rules are read as. -/
theorem Read.converted (h : Read groups rules) (schema : Schema) (settings : Settings)
    (forSearch : Bool) : Read (convertedGroups groups schema settings forSearch)
      (convertedRules rules schema settings forSearch) :=
  h.map _

/-- Conversion keeps the number of groups. -/
@[simp] theorem length_convertedGroups :
    (convertedGroups groups schema settings forSearch).length = groups.length :=
  List.length_map _

/-- As many groups have a criteria after the conversion. -/
@[simp] theorem countP_convertedGroups :
    (convertedGroups groups schema settings forSearch).countP hasCriteria =
      groups.countP hasCriteria := by
  simp [convertedGroups, List.countP_map, Function.comp_def]

/-- Groups are sound after the conversion when they are before. -/
theorem isSound_convertedGroups
    (hcounts : ∀ change (item : Item), counts (item.map change) = counts item) :
    (∀ group ∈ groupsOf (convertedGroups groups schema settings forSearch),
      group.IsSound counts) ↔ ∀ group ∈ groupsOf groups, group.IsSound counts := by
  rw [convertedGroups, groupsOf_map, List.forall_mem_map]
  exact forall₂_congr fun group _ => GroupContents.isSound_map (hcounts _) group

/-- Groups account for the faults that they account for after the conversion. -/
theorem fault_of_convertedGroups
    (hcounts : ∀ change (item : Item), counts (item.map change) = counts item)
    {error : CompileError} (h : GroupContents.Fault counts
      (groupsOf (convertedGroups groups schema settings forSearch)) error) :
    GroupContents.Fault counts (groupsOf groups) error := by
  rw [convertedGroups, groupsOf_map] at h
  exact h.of_map (hcounts _)

end Item

/-- A valid list can be converted, for either kind of query. -/
theorem convertRules_of_validate (settings : Settings) (forSearch : Bool)
    (h : validate rules schema = .ok ()) :
    convertRules rules schema settings forSearch =
      .ok (convertedRules rules schema settings forSearch) := by
  obtain ⟨_, hcheck, _⟩ := validate_eq_ok_iff.mp h
  obtain ⟨others, hothers⟩ : ∃ others, convertFrom 0 schema settings forSearch rules = .ok others :=
    exists_convertFrom fun criteria hcriteria =>
      ((Criteria.check_eq_ok_iff settings forSearch).mp (hcheck criteria hcriteria)).2
  rw [convertRules, hothers, (convertFrom_eq_ok hothers).1, convertedRules]

/-- The converted rules of a valid list are not empty. -/
theorem convertedRules_ne_nil (h : validate rules schema = .ok ()) :
    convertedRules rules schema settings forSearch ≠ [] := by
  simpa [convertedRules] using (validate_eq_ok_iff.mp h).1

/-- Each criteria of a valid list can be converted, for either kind of query. -/
theorem convert_of_validate (settings : Settings) (forSearch : Bool)
    (h : validate rules schema = .ok ()) :
    ∀ criteria, Rule.criteria criteria ∈ rules →
      criteria.convert 0 schema settings forSearch =
        .ok (criteria.converted schema settings forSearch) :=
  (convertFrom_eq_ok (convertRules_of_validate settings forSearch h)).2

/-- The converted criteria of a valid list are ready. -/
theorem isReady_of_validate (settings : Settings) (forSearch : Bool)
    (h : validate rules schema = .ok ()) :
    ∀ criteria, Rule.criteria criteria ∈ convertedRules rules schema settings forSearch →
      criteria.IsReady schema := by
  obtain ⟨_, hcheck, _⟩ := validate_eq_ok_iff.mp h
  have hconvert := convert_of_validate settings forSearch h
  intro criteria hcriteria
  obtain ⟨single, hsingle, rfl⟩ := Rule.criteria_mem_map.mp hcriteria
  have hshape := ((Criteria.check_eq_ok_iff settings forSearch).mp (hcheck single hsingle)).1
  exact Criteria.isReady_of_convert hshape (hconvert single hsingle)

end FilterRules
