import FilterRules.Proofs.Validity

/-!
# Converting twice

A literal that has the declared type is left as it is, and conversion gives such literals. What is
converted once is therefore not changed by a second conversion, whichever kind of query either of
them is for: the mark for an exact comparison is set anew from the attribute and the relationship,
which a conversion keeps.
-/

namespace FilterRules

variable {schema : Schema} {settings : Settings} {criteria result : Criteria}
  {declared : AttributeType} {rule : Nat} {forSearch : Bool} {rules : List Rule}

namespace Literal

/-- A converted number is converted to itself. -/
theorem number?_number? {literal other : Literal} (h : literal.number? = some other) :
    other.number? = some other := by
  cases literal with
  | integer n =>
    obtain rfl := Option.some.inj h
    rfl
  | real x =>
    obtain rfl := Option.some.inj h
    rfl
  | text s =>
    rw [number?] at h
    split at h
    · obtain rfl := Option.some.inj h
      rfl
    · obtain rfl := Option.some.inj h
      rfl
    · simp at h
  | boolean b => simp [number?] at h
  | date d => simp [number?] at h

/-- A converted truth value is converted to itself. -/
theorem boolean?_boolean? {literal other : Literal} (h : literal.boolean? = some other) :
    other.boolean? = some other := by
  cases literal with
  | boolean b =>
    obtain rfl := Option.some.inj h
    rfl
  | text s =>
    rw [boolean?] at h
    split at h
    · obtain rfl := Option.some.inj h
      rfl
    · split at h
      · obtain rfl := Option.some.inj h
        rfl
      · simp at h
  | integer n => simp [boolean?] at h
  | real x => simp [boolean?] at h
  | date d => simp [boolean?] at h

/-- A converted date is converted to itself. -/
theorem date?_date? {literal other : Literal} (h : literal.date? = some other) :
    other.date? = some other := by
  cases literal with
  | date d =>
    obtain rfl := Option.some.inj h
    rfl
  | text s =>
    obtain ⟨d, _, rfl⟩ := Option.map_eq_some_iff.mp h
    rfl
  | boolean b => simp [date?] at h
  | integer n => simp [date?] at h
  | real x => simp [date?] at h

/-- A reading of literals as values of one kind has a result when the literal has one. -/
theorem elim_eq_ok_iff {reading : Option Literal} {fault : ExpectedType} {literal : Literal} :
    reading.elim (Except.error fault) Except.ok = .ok literal ↔ reading = some literal := by
  cases reading <;> simp

/-- What a conversion gives has the declared type. -/
theorem convert_convert {literal other : Literal} (h : literal.convert declared = .ok other) :
    other.convert declared = .ok other := by
  rw [convert] at h ⊢
  cases hkind : declared.kind with
  | number =>
    simp only [hkind, elim_eq_ok_iff] at h ⊢
    exact number?_number? h
  | boolean =>
    simp only [hkind, elim_eq_ok_iff] at h ⊢
    exact boolean?_boolean? h
  | string =>
    cases hdate : declared.isDate with
    | true =>
      simp only [hkind, hdate, if_true, elim_eq_ok_iff] at h ⊢
      exact date?_date? h
    | false =>
      simp only [hkind, hdate, Bool.false_eq_true, if_false] at h ⊢
      obtain rfl := Except.ok.inj h
      rfl
  | object => simp [hkind] at h
  | unknown => simp [hkind] at h

end Literal

/-- A converted operand is converted to itself. -/
theorem Operand.ConvertsTo.self {before after : Operand} (h : before.ConvertsTo declared after) :
    after.ConvertsTo declared after := by
  cases h with
  | value hliteral => exact .value (Literal.convert_convert hliteral)
  | values hliterals =>
    refine .values (List.forall₂_same.mpr ?_)
    exact Outcome.forall_mem_of_forall₂ hliterals fun _ _ => Literal.convert_convert

namespace Criteria

/-- A converted criteria is converted as the criteria that it comes from. -/
theorem convert_convert (h : criteria.convert rule schema settings forSearch = .ok result)
    (again : Bool) :
    result.convert rule schema settings again = criteria.convert rule schema settings again := by
  obtain ⟨path, declared, literal, operand, hpath, hlookup, hliteral, hoperand, rfl⟩ :=
    convert_eq_ok_iff.mp h
  rw [convert_eq_ok_iff.mpr ⟨path, declared, literal, operand, hpath, hlookup, hliteral, hoperand,
    rfl⟩]
  exact convert_eq_ok_iff.mpr ⟨path, declared, literal, operand, hpath, hlookup, hliteral,
    hoperand.self, rfl⟩

/-- A converted criteria of the right shape is valid. -/
theorem check_of_convert (hshape : criteria.hasShape)
    (h : criteria.convert 0 schema settings forSearch = .ok result) :
    result.check 0 schema = .ok () := by
  have hself : result.convert 0 schema settings forSearch = .ok result :=
    (convert_convert h forSearch).trans h
  exact (check_eq_ok_iff settings forSearch).mpr
    ⟨(isReady_of_convert hshape h).shape, result, hself⟩

end Criteria

/-- Operands of one shape with as many literals. -/
inductive Operand.SameShape : Operand → Operand → Prop
  /-- Single literals. -/
  | value (before after : Literal) : Operand.SameShape (.value before) (.value after)
  /-- Lists of literals. -/
  | values {before after : List Literal} (h : before.length = after.length) :
      Operand.SameShape (.values before) (.values after)

/-- A conversion keeps the shape of an operand and the number of its literals. -/
theorem Operand.ConvertsTo.sameShape {before after : Operand}
    (h : before.ConvertsTo declared after) : before.SameShape after := by
  cases h with
  | value hliteral => exact .value _ _
  | values hliterals => exact .values hliterals.length_eq

/-- Rules that differ in nothing but literals and marks for an exact comparison. -/
inductive Rule.Resembles : Rule → Rule → Prop
  /-- The same mark. -/
  | separator (mark : Separator) : Rule.Resembles (.separator mark) (.separator mark)
  /-- The same connective. -/
  | logical (connective : Connective) : Rule.Resembles (.logical connective) (.logical connective)
  /-- Comparisons of the same attribute by the same relationship, with operands of one shape. -/
  | criteria {before after : Criteria} (hpath : after.path = before.path)
      (hrelationship : after.relationship = before.relationship)
      (hoperand : before.operand.SameShape after.operand) :
      Rule.Resembles (.criteria before) (.criteria after)

/-- A rule of a valid list resembles its conversion. -/
theorem resembles_of_validate (settings : Settings) (forSearch : Bool)
    (h : validate rules schema = .ok ()) : ∀ rule ∈ rules,
      rule.Resembles (rule.map fun criteria => criteria.converted schema settings forSearch) := by
  intro rule hrule
  cases rule with
  | separator mark => exact .separator mark
  | logical connective => exact .logical connective
  | criteria single =>
    obtain ⟨path, declared, literal, operand, _, _, _, hoperand, hresult⟩ :=
      Criteria.convert_eq_ok_iff.mp (convert_of_validate settings forSearch h single hrule)
    rw [Rule.map, hresult]
    exact .criteria rfl rfl hoperand.sameShape

/-- The converted rules of a valid list are valid. -/
theorem validate_convertedRules (settings : Settings) (forSearch : Bool)
    (h : validate rules schema = .ok ()) :
    validate (convertedRules rules schema settings forSearch) schema = .ok () := by
  obtain ⟨_, hcheck, _⟩ := validate_eq_ok_iff.mp h
  refine validate_map h fun single hsingle => ?_
  have hshape := ((Criteria.check_eq_ok_iff settings forSearch).mp (hcheck single hsingle)).1
  exact Criteria.check_of_convert hshape (convert_of_validate settings forSearch h single hsingle)

/-- Converting the converted rules of a valid list is converting the list. -/
theorem convertedRules_convertedRules (settings : Settings) (forSearch again : Bool)
    (h : validate rules schema = .ok ()) :
    convertedRules (convertedRules rules schema settings forSearch) schema settings again =
      convertedRules rules schema settings again := by
  rw [convertedRules, convertedRules, convertedRules, List.map_map, Rule.map_comp_map]
  refine Rule.map_congr fun single hsingle => ?_
  have hconvert := convert_of_validate settings forSearch h single hsingle
  have honce := convert_of_validate settings again h single hsingle
  exact Criteria.converted_of_convert ((Criteria.convert_convert hconvert again).trans honce)

/-- The rules of a valid list can be converted, rule by rule and in nothing but their literals, and
stay valid; a second conversion gives what it gives for the list itself. -/
theorem convertRules_projection (settings : Settings) (forSearch : Bool)
    (h : validate rules schema = .ok ()) :
    ∃ converted, convertRules rules schema settings forSearch = .ok converted ∧
      List.Forall₂ Rule.Resembles rules converted ∧ validate converted schema = .ok () ∧
      ∀ again, convertRules converted schema settings again =
        convertRules rules schema settings again := by
  have hvalid := validate_convertedRules settings forSearch h
  refine ⟨_, convertRules_of_validate settings forSearch h, ?_, hvalid, fun again => ?_⟩
  · rw [convertedRules, List.forall₂_map_right_iff, List.forall₂_same]
    exact resembles_of_validate settings forSearch h
  · rw [convertRules_of_validate settings again hvalid, convertRules_of_validate settings again h,
      convertedRules_convertedRules settings forSearch again h]

/-- Texts become a number and a date, a number and a truth value become texts, and the result is
converted to itself. -/
theorem convertRules_projection_texts :
    let schema : Schema := ((Schema.empty.insert "price" .ofNumbers).insert "name" .ofStrings).insert
      "sold" .ofDates
    let price : Criteria := ⟨"price", .greater, .value (.text " 12 "), false⟩
    let name : Criteria := ⟨"name", .oneOf, .values [.integer 7, .boolean true], false⟩
    let sold : Criteria := ⟨"sold", .less, .value (.text "2024-01-31T08:05:00.250Z"), false⟩
    let rules : List Rule := [.separator .opening, .criteria price, .logical .and, .criteria name,
      .logical .and, .criteria sold, .separator .closing]
    validate rules schema = .ok () ∧
      ∃ converted, convertRules rules schema {} true = .ok converted ∧
        List.Forall₂ Rule.Resembles rules converted ∧ validate converted schema = .ok () ∧
        ∀ again, convertRules converted schema {} again = convertRules rules schema {} again := by
  intro schema price name sold rules
  have hvalid : validate rules schema = .ok () := by decide +kernel
  exact ⟨hvalid, convertRules_projection {} true hvalid⟩

end FilterRules
