import FilterRules.Proofs.Schema.Places
import FilterRules.Proofs.Spelling.Rules

/-!
# What rules read of a schema

A comparison reads the declared type of its field, the places above the field, and the key of its
selection if there is one. Schemas that agree on those places accept the same lists, for the same
reasons reject the others, and give the same converted rules.
-/

namespace FilterRules

/-- The places of a schema that a path leads to: its field, those above the field, and the key of its
selection. -/
def AttributePath.places (path : AttributePath) : List String :=
  path.schemaPath :: Dotted.ancestors path.schemaPath ++ path.keyPath?.toList

/-- The places of a schema that a comparison reads; none if its attribute is no path. -/
def Criteria.places (criteria : Criteria) : List String :=
  (AttributePath.parse? criteria.path).elim [] AttributePath.places

/-- The places of a schema that a list reads. -/
def placesOf (rules : List Rule) : List String := (Rule.criteriaOf rules).flatMap Criteria.places

variable {schema other : Schema} {path : AttributePath} {criteria : Criteria} {rules : List Rule}
  {settings : Settings} {forSearch : Bool} {rule : Nat}

/-- Schemas agree on the places of a list when they do so on those of each of its comparisons. -/
theorem Schema.agreeOn_placesOf : schema.AgreeOn other (placesOf rules) ↔
    ∀ criteria, Rule.criteria criteria ∈ rules → schema.AgreeOn other criteria.places := by
  simp only [AgreeOn, placesOf, List.mem_flatMap, Rule.mem_criteriaOf]
  constructor
  · intro h criteria hcriteria place hplace
    exact h place ⟨criteria, hcriteria, hplace⟩
  · rintro h place ⟨criteria, hcriteria, hplace⟩
    exact h criteria hcriteria place hplace

namespace Schema.AgreeOn

/-- The declared type of the field is the same. -/
theorem lookup_schemaPath (h : schema.AgreeOn other path.places) :
    schema.lookup path.schemaPath = other.lookup path.schemaPath :=
  h _ (by simp [AttributePath.places])

/-- The schemas agree above the field. -/
theorem ancestors (h : schema.AgreeOn other path.places) :
    schema.AgreeOn other (Dotted.ancestors path.schemaPath) :=
  h.mono fun _ hplace => by simp [AttributePath.places, hplace]

/-- The declared type of the key is the same. -/
theorem lookup_keyPath (h : schema.AgreeOn other path.places) {keyPath : String}
    (hkey : path.keyPath? = some keyPath) : schema.lookup keyPath = other.lookup keyPath :=
  h _ (by simp [AttributePath.places, hkey])

/-- The literal of the selection is the same. -/
theorem filterLiteral_eq (h : schema.AgreeOn other path.places) :
    path.filterLiteral schema = path.filterLiteral other := by
  cases path with
  | plain segments => rfl
  | filtered array key value element =>
    rw [AttributePath.filterLiteral, AttributePath.filterLiteral, h.lookup_keyPath rfl]

/-- The literal that a query compares the key with is the same. -/
theorem emittedFilter_eq (h : schema.AgreeOn other path.places) :
    path.emittedFilter schema = path.emittedFilter other := by
  rw [AttributePath.emittedFilter.eq_def, h.filterLiteral_eq]
  rfl

/-- A comparison on a path reads the places of that path. -/
theorem of_criteria (h : schema.AgreeOn other criteria.places)
    (hpath : AttributePath.parse? criteria.path = some path) : schema.AgreeOn other path.places := by
  rwa [Criteria.places, hpath] at h

/-- The declared type of the attribute is the same, or the fault. -/
theorem resolve_eq (h : schema.AgreeOn other criteria.places) :
    schema.resolve criteria.path rule = other.resolve criteria.path rule := by
  cases hpath : AttributePath.parse? criteria.path with
  | none => simp [Schema.resolve, AttributePath.parseAt, hpath]
  | some path =>
    simp only [Schema.resolve, AttributePath.parseAt, hpath, Outcome.ok_bind,
      (h.of_criteria hpath).lookup_schemaPath]

/-- The selection passes or has the same fault. -/
theorem checkFilter_eq (h : schema.AgreeOn other criteria.places) :
    criteria.checkFilter rule schema = criteria.checkFilter rule other := by
  cases hpath : AttributePath.parse? criteria.path with
  | none => simp [Criteria.checkFilter, AttributePath.parseAt, hpath]
  | some path =>
    simp only [Criteria.checkFilter, AttributePath.parseAt, hpath, Outcome.ok_bind,
      (h.of_criteria hpath).filterLiteral_eq]

/-- A comparison passes or has the same fault. -/
theorem check_eq (h : schema.AgreeOn other criteria.places) :
    criteria.check rule schema = criteria.check rule other := by
  rw [Criteria.check, Criteria.check, h.resolve_eq, h.checkFilter_eq]

/-- A comparison has the same conversion, or the same fault. -/
theorem convert_eq (h : schema.AgreeOn other criteria.places) :
    criteria.convert rule schema settings forSearch =
      criteria.convert rule other settings forSearch := by
  rw [Criteria.convert, Criteria.convert, h.resolve_eq, h.checkFilter_eq]

/-- The comparisons of a list pass, or the same one has the same fault. -/
theorem checkCriteriaFrom_eq (h : schema.AgreeOn other (placesOf rules)) (index : Nat) :
    checkCriteriaFrom index schema rules = checkCriteriaFrom index other rules := by
  rw [agreeOn_placesOf] at h
  induction rules generalizing index with
  | nil => rfl
  | cons first rest ih =>
    have hrest := ih fun criteria hcriteria => h criteria (List.mem_cons_of_mem _ hcriteria)
    cases first with
    | separator mark => exact hrest (index + 1)
    | logical connective => exact hrest (index + 1)
    | criteria single =>
      rw [checkCriteriaFrom, checkCriteriaFrom, (h single List.mem_cons_self).check_eq, hrest]

/-- A list is valid or has the same fault. -/
theorem validate_eq (h : schema.AgreeOn other (placesOf rules)) :
    validate rules schema = validate rules other := by
  rw [validate, validate, h.checkCriteriaFrom_eq]

/-- The converted rules of a list are the same. -/
theorem convertedRules_eq (h : schema.AgreeOn other (placesOf rules)) :
    convertedRules rules schema settings forSearch = convertedRules rules other settings forSearch := by
  refine Rule.map_congr fun single hsingle => ?_
  rw [Criteria.converted, Criteria.converted, (agreeOn_placesOf.mp h single hsingle).convert_eq]

end Schema.AgreeOn

/-- Whether all that a query reads about a comparison is the same under two schemas: its attribute is a
path on whose places they agree, and which is the attribute itself if nothing is selected. -/
def Criteria.IsReadAlike (criteria : Criteria) (schema other : Schema) : Prop :=
  ∃ path, AttributePath.parse? criteria.path = some path ∧ schema.AgreeOn other path.places ∧
    (path.isFiltered = false → path.schemaPath = criteria.path)

/-- The converted comparisons of a valid list with canonical attributes are read alike under schemas that
agree on the places of the list. -/
theorem isReadAlike_of_validate (hvalid : validate rules schema = .ok ())
    (hcanonical : IsCanonical rules) (hagree : schema.AgreeOn other (placesOf rules)) :
    ∀ criteria, Rule.criteria criteria ∈ convertedRules rules schema settings forSearch →
      criteria.IsReadAlike schema other := by
  intro criteria hcriteria
  obtain ⟨before, hbefore, rfl⟩ := Rule.criteria_mem_map.mp hcriteria
  obtain ⟨path, _, hpath, _⟩ :=
    (isReady_of_validate settings forSearch hvalid _ hcriteria).path
  rw [Criteria.path_converted] at hpath
  refine ⟨path, by rw [Criteria.path_converted, hpath],
    (Schema.agreeOn_placesOf.mp hagree before hbefore).of_criteria hpath, fun hplain => ?_⟩
  rw [Criteria.path_converted]
  rcases hcanonical before hbefore with hselects | hspelled
  · simp [Criteria.selects, hpath, hplain] at hselects
  · rw [Criteria.canonicalPath, hpath] at hspelled
    cases path with
    | plain segments => exact hspelled
    | filtered array key value element => simp [AttributePath.isFiltered] at hplain

end FilterRules
