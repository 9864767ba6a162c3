import FilterRules.Proofs.Attribute
import FilterRules.Proofs.Validity

/-!
# Rules under their canonical spelling

A comparison is respelled by putting the canonical text of its path in place of its attribute. It keeps
its path, and is valid as before, exactly when its selection has a key and a value if there is one. It
is converted as before, apart from the attribute, for a document query; for a search it is so when the
attribute is the identifying field under both spellings or under none.
-/

namespace FilterRules

variable {schema : Schema} {settings : Settings} {criteria result : Criteria} {rules : List Rule}
  {forSearch : Bool}

namespace Criteria

/-- The canonical spelling of an attribute; a text that is no path stays as it is. -/
def canonicalPath (criteria : Criteria) : String :=
  ((AttributePath.parse? criteria.path).map AttributePath.text).getD criteria.path

/-- A comparison under the canonical spelling of its attribute. -/
def respelled (criteria : Criteria) : Criteria := { criteria with path := criteria.canonicalPath }

/-- Whether the attribute selects an element. -/
def selects (criteria : Criteria) : Bool :=
  (AttributePath.parse? criteria.path).any AttributePath.isFiltered

/-- Whether the selection of the attribute, if there is one, has a key and a value. -/
def isNamed (criteria : Criteria) : Bool :=
  (AttributePath.parse? criteria.path).all AttributePath.isNamed

/-- How an attribute is spelled does not depend on the rest of its comparison. -/
theorem spelling_congr {first second : Criteria} (h : first.path = second.path) :
    first.selects = second.selects ∧ first.canonicalPath = second.canonicalPath ∧
      first.isNamed = second.isNamed := by
  simp only [selects, canonicalPath, isNamed, h, and_self]

/-- The canonical spelling is a path when the selection has a key and a value. -/
theorem parse?_canonicalPath {path : AttributePath}
    (hpath : AttributePath.parse? criteria.path = some path) :
    AttributePath.parse? criteria.canonicalPath = if criteria.isNamed then some path else none := by
  have hproper := AttributePath.isProper_of_parse? hpath
  simp only [canonicalPath, isNamed, hpath, Option.map_some, Option.getD_some, Option.all_some]
  exact AttributePath.parse?_text hproper

/-- A comparison whose selection has a key and a value keeps its path. -/
theorem parse?_respelled (hnamed : criteria.isNamed = true) :
    AttributePath.parse? criteria.respelled.path = AttributePath.parse? criteria.path := by
  cases hpath : AttributePath.parse? criteria.path with
  | none => simp [respelled, canonicalPath, hpath]
  | some path => simp [respelled, parse?_canonicalPath hpath, hnamed]

/-- A search asks for the exact form of the same fields when the identifying field is the same. -/
theorem wantsExact_respelled (declared : AttributeType)
    (h : criteria.path = settings.identityField ↔
      criteria.canonicalPath = settings.identityField) :
    criteria.respelled.wantsExact declared settings = criteria.wantsExact declared settings := by
  have hidentity : (criteria.canonicalPath != settings.identityField) =
      (criteria.path != settings.identityField) := by
    rw [bne, bne, Bool.not_eq_eq_eq_not, Bool.not_not, Bool.eq_iff_iff, beq_iff_eq, beq_iff_eq, h]
  simp [wantsExact, respelled, hidentity]

/-- A comparison that can be converted is converted as before under its canonical spelling. -/
theorem convert_respelled (hnamed : criteria.isNamed = true)
    (hidentity : forSearch = true → (criteria.path = settings.identityField ↔
      criteria.canonicalPath = settings.identityField))
    (h : criteria.convert 0 schema settings forSearch = .ok result) :
    criteria.respelled.convert 0 schema settings forSearch = .ok result.respelled := by
  obtain ⟨path, declared, literal, operand, hpath, hlookup, hliteral, hoperand, rfl⟩ :=
    convert_eq_ok_iff.mp h
  have hexact : (forSearch && criteria.respelled.wantsExact declared settings) =
      (forSearch && criteria.wantsExact declared settings) := by
    cases forSearch with
    | false => rfl
    | true => rw [wantsExact_respelled declared (hidentity rfl)]
  refine convert_eq_ok_iff.mpr ⟨path, declared, literal, operand, ?_, hlookup, hliteral, hoperand, ?_⟩
  · rw [parse?_respelled hnamed, hpath]
  · rw [hexact]
    rfl

/-- A valid comparison is valid under its canonical spelling when its selection has a key and a value,
if there is one. -/
theorem check_respelled_iff (h : criteria.check 0 schema = .ok ()) :
    criteria.respelled.check 0 schema = .ok () ↔ criteria.isNamed = true := by
  obtain ⟨hshape, result, hconvert⟩ := (check_eq_ok_iff {} false).mp h
  constructor
  · intro hrespelled
    obtain ⟨_, other, hother⟩ := (check_eq_ok_iff {} false).mp hrespelled
    obtain ⟨path, _, _, _, hpath, _⟩ := convert_eq_ok_iff.mp hconvert
    obtain ⟨path', _, _, _, hpath', _⟩ := convert_eq_ok_iff.mp hother
    rw [respelled, parse?_canonicalPath hpath] at hpath'
    exact (Option.ite_none_right_eq_some.mp hpath').1
  · intro hnamed
    exact (check_eq_ok_iff {} false).mpr ⟨hshape, _, convert_respelled hnamed (by simp) hconvert⟩

end Criteria

/-- A list under the canonical spelling of its attributes. -/
def respelledRules (rules : List Rule) : List Rule := rules.map (Rule.map Criteria.respelled)

/-- A valid list is valid under the canonical spelling of its attributes when all of its selections
have a key and a value. -/
theorem validate_respelledRules_iff (h : validate rules schema = .ok ()) :
    validate (respelledRules rules) schema = .ok () ↔
      ∀ criteria, Rule.criteria criteria ∈ rules → criteria.isNamed = true := by
  obtain ⟨_, hcheck, _⟩ := validate_eq_ok_iff.mp h
  constructor
  · intro hrespelled criteria hcriteria
    obtain ⟨_, hchecks, _⟩ := validate_eq_ok_iff.mp hrespelled
    refine (Criteria.check_respelled_iff (hcheck criteria hcriteria)).mp (hchecks _ ?_)
    exact Rule.criteria_mem_map.mpr ⟨criteria, hcriteria, rfl⟩
  · intro hnamed
    refine validate_map h fun criteria hcriteria => ?_
    exact (Criteria.check_respelled_iff (hcheck criteria hcriteria)).mpr (hnamed criteria hcriteria)

/-- The converted rules of a valid list are respelled when the list is. -/
theorem convertedRules_respelledRules (h : validate rules schema = .ok ())
    (hnamed : ∀ criteria, Rule.criteria criteria ∈ rules → criteria.isNamed = true)
    (hidentity : forSearch = true → ∀ criteria, Rule.criteria criteria ∈ rules →
      (criteria.path = settings.identityField ↔ criteria.canonicalPath = settings.identityField)) :
    convertedRules (respelledRules rules) schema settings forSearch =
      respelledRules (convertedRules rules schema settings forSearch) := by
  rw [convertedRules, respelledRules, respelledRules, convertedRules, List.map_map, List.map_map,
    Rule.map_comp_map, Rule.map_comp_map]
  refine Rule.map_congr fun single hsingle => ?_
  have hconvert := convert_of_validate settings forSearch h single hsingle
  exact Criteria.converted_of_convert (Criteria.convert_respelled (hnamed single hsingle)
    (fun hsearch => hidentity hsearch single hsingle) hconvert)

/-- Whether all comparisons of a list without a selection have their canonical spelling. -/
def IsCanonical (rules : List Rule) : Prop :=
  ∀ criteria, Rule.criteria criteria ∈ rules →
    criteria.selects = true ∨ criteria.canonicalPath = criteria.path

/-- Two lists have the canonical spelling together when each of them has. -/
theorem isCanonical_append {front back : List Rule} :
    IsCanonical (front ++ back) ↔ IsCanonical front ∧ IsCanonical back := by
  simp only [IsCanonical, List.mem_append, or_imp, forall_and]

/-- The converted comparisons of a list have the spelling that the list has. -/
theorem isCanonical_convertedRules (settings : Settings) (forSearch : Bool) :
    IsCanonical (convertedRules rules schema settings forSearch) ↔ IsCanonical rules := by
  have hspelling (criteria : Criteria) :=
    Criteria.spelling_congr (criteria.path_converted schema settings forSearch)
  constructor
  · intro h criteria hcriteria
    have hconverted := h _ (Rule.criteria_mem_map.mpr ⟨criteria, hcriteria, rfl⟩)
    rwa [(hspelling criteria).1, (hspelling criteria).2.1, Criteria.path_converted] at hconverted
  · intro h criteria hcriteria
    obtain ⟨before, hbefore, rfl⟩ := Rule.criteria_mem_map.mp hcriteria
    rw [(hspelling before).1, (hspelling before).2.1, Criteria.path_converted]
    exact h before hbefore

/-- Ranking does not depend on the spelling of attributes. -/
theorem requiresScoring_respelledRules (rules : List Rule) :
    requiresScoring (respelledRules rules) = requiresScoring rules :=
  requiresScoring_map Criteria.respelled (fun _ => rfl) rules

end FilterRules
