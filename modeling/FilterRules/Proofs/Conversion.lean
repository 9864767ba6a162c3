import FilterRules.Conversion
import FilterRules.Proofs.Outcome
import FilterRules.Proofs.Rule.Item
import Mathlib.Data.List.Forall2

/-!
# What a conversion gives

A criteria is converted exactly when its path is known, the value of its selection has the type of
the key, and each of its literals has the declared type. The place of its rule shows up in faults
alone, so that the rules of a list are converted each on its own.
-/

namespace FilterRules

variable {schema : Schema} {settings : Settings} {criteria result : Criteria}
  {declared : AttributeType} {rule : Nat}

/-- A path at a place is the path of its text. -/
theorem AttributePath.parseAt_eq_ok_iff {text : String} {place : Option Nat}
    {path : AttributePath} : parseAt text place = .ok path ↔ parse? text = some path := by
  cases hparse : parse? text <;> simp [parseAt, hparse]

/-- An attribute has a type when the schema knows its path without the selection. -/
theorem Schema.resolve_eq_ok_iff {text : String} : schema.resolve text rule = .ok declared ↔
    ∃ path, AttributePath.parse? text = some path ∧
      schema.lookup path.schemaPath = some declared := by
  cases hparse : AttributePath.parse? text with
  | none => simp [Schema.resolve, AttributePath.parseAt, hparse]
  | some path =>
    cases hlookup : schema.lookup path.schemaPath with
    | none =>
      have hfault : schema.resolve text rule = .error (.unknownAttribute path.schemaPath) := by
        simp only [Schema.resolve, AttributePath.parseAt, hparse, Outcome.ok_bind, hlookup]
        rfl
      simp [hfault, hlookup]
    | some found => simp [Schema.resolve, AttributePath.parseAt, hparse, hlookup]

namespace Criteria

/-- The selection of a criteria passes when its value has a literal. -/
theorem checkFilter_eq_ok_iff : criteria.checkFilter rule schema = .ok () ↔
    ∃ path literal, AttributePath.parse? criteria.path = some path ∧
      path.filterLiteral schema = .ok literal := by
  cases hparse : AttributePath.parse? criteria.path with
  | none => simp [checkFilter, AttributePath.parseAt, hparse]
  | some path =>
    simp only [checkFilter, AttributePath.parseAt, hparse, Outcome.ok_bind, Option.some.injEq,
      exists_and_left, exists_eq_left']
    cases path with
    | plain segments => simp [AttributePath.filterLiteral]
    | filtered array key value element =>
      cases (AttributePath.filtered array key value element).filterLiteral schema with
      | error expected => simp [throw, throwThe, MonadExceptOf.throw]
      | ok literal => simp

/-- Literals are converted one by one. -/
theorem convertLiterals_eq_ok_iff {literals others : List Literal} :
    criteria.convertLiterals rule declared literals = .ok others ↔
      List.Forall₂ (fun literal other => literal.convert declared = .ok other) literals others := by
  induction literals generalizing others with
  | nil =>
    rw [List.forall₂_nil_left_iff]
    constructor
    · intro h
      exact (Except.ok.inj h).symm
    · rintro rfl
      rfl
  | cons literal literals ih =>
    rw [List.forall₂_cons_left_iff, convertLiterals, Outcome.bind_eq_ok_iff]
    have hliteral : ∀ other, criteria.convertLiteral rule declared literal = .ok other ↔
        literal.convert declared = .ok other := by
      intro other
      cases hconvert : literal.convert declared <;> simp [convertLiteral, hconvert]
    constructor
    · rintro ⟨first, hfirst, hrest⟩
      obtain ⟨rest, hrest, hothers⟩ := Outcome.bind_eq_ok_iff.mp hrest
      exact ⟨first, rest, (hliteral first).mp hfirst, ih.mp hrest, (Except.ok.inj hothers).symm⟩
    · rintro ⟨first, rest, hfirst, hrest, rfl⟩
      refine ⟨first, (hliteral first).mpr hfirst, ?_⟩
      rw [ih.mpr hrest]
      rfl

end Criteria

/-- The literals of an operand and their conversions. -/
inductive Operand.ConvertsTo (declared : AttributeType) : Operand → Operand → Prop
  /-- A single literal. -/
  | value {literal other : Literal} (h : literal.convert declared = .ok other) :
      Operand.ConvertsTo declared (.value literal) (.value other)
  /-- Several literals. -/
  | values {literals others : List Literal}
      (h : List.Forall₂ (fun literal other => literal.convert declared = .ok other) literals
        others) : Operand.ConvertsTo declared (.values literals) (.values others)

namespace Criteria

/-- An operand is converted literal by literal. -/
theorem convertOperand_eq_ok_iff {operand : Operand} :
    criteria.convertOperand rule declared = .ok operand ↔
      criteria.operand.ConvertsTo declared operand := by
  rw [convertOperand]
  cases criteria.operand with
  | value literal =>
    cases hconvert : literal.convert declared with
    | error expected =>
      simp only [convertLiteral, hconvert, Except.map]
      constructor
      · intro h
        cases h
      · rintro (⟨hvalue⟩ | _)
        simp [hconvert] at hvalue
    | ok other =>
      simp only [convertLiteral, hconvert, Except.map]
      constructor
      · intro h
        cases h
        exact .value hconvert
      · rintro (⟨hvalue⟩ | _)
        rw [hconvert] at hvalue
        rw [Except.ok.inj hvalue]
  | values literals =>
    rw [Outcome.map_eq_ok_iff]
    constructor
    · rintro ⟨others, hothers, rfl⟩
      exact .values (convertLiterals_eq_ok_iff.mp hothers)
    · rintro (_ | ⟨hvalues⟩)
      exact ⟨_, convertLiterals_eq_ok_iff.mpr hvalues, rfl⟩

/-- A criteria is converted when its path, its selection and its literals allow it. -/
theorem convert_eq_ok_iff {forSearch : Bool} :
    criteria.convert rule schema settings forSearch = .ok result ↔
      ∃ path declared literal operand, AttributePath.parse? criteria.path = some path ∧
        schema.lookup path.schemaPath = some declared ∧ path.filterLiteral schema = .ok literal ∧
        criteria.operand.ConvertsTo declared operand ∧
        result = { criteria with
          operand, exactMatch := forSearch && criteria.wantsExact declared settings } := by
  rw [convert]
  constructor
  · intro h
    obtain ⟨declared, hdeclared, h⟩ := Outcome.bind_eq_ok_iff.mp h
    obtain ⟨⟨⟩, hfilter, h⟩ := Outcome.bind_eq_ok_iff.mp h
    obtain ⟨operand, hoperand, h⟩ := Outcome.bind_eq_ok_iff.mp h
    obtain ⟨path, hpath, hlookup⟩ := Schema.resolve_eq_ok_iff.mp hdeclared
    obtain ⟨path', literal, hpath', hliteral⟩ := checkFilter_eq_ok_iff.mp hfilter
    obtain rfl : path = path' := Option.some.inj (hpath.symm.trans hpath')
    exact ⟨path, declared, literal, operand, hpath, hlookup, hliteral,
      convertOperand_eq_ok_iff.mp hoperand, (Except.ok.inj h).symm⟩
  · rintro ⟨path, declared, literal, operand, hpath, hlookup, hliteral, hoperand, rfl⟩
    rw [Schema.resolve_eq_ok_iff.mpr ⟨path, hpath, hlookup⟩, Outcome.ok_bind,
      checkFilter_eq_ok_iff.mpr ⟨path, literal, hpath, hliteral⟩, Outcome.ok_bind,
      convertOperand_eq_ok_iff.mpr hoperand]
    rfl

/-- A criteria is converted in the same way at every place. -/
theorem convert_place {forSearch : Bool} (other : Nat)
    (h : criteria.convert rule schema settings forSearch = .ok result) :
    criteria.convert other schema settings forSearch = .ok result :=
  convert_eq_ok_iff.mpr (convert_eq_ok_iff.mp h)

/-- A criteria with converted literals, or as it stands when it has none. -/
def converted (criteria : Criteria) (schema : Schema) (settings : Settings) (forSearch : Bool) :
    Criteria :=
  (criteria.convert 0 schema settings forSearch).toOption.getD criteria

/-- A criteria that can be converted, with its converted literals. -/
theorem converted_of_convert {result : Criteria} {forSearch : Bool}
    (h : criteria.convert 0 schema settings forSearch = .ok result) :
    criteria.converted schema settings forSearch = result := by
  rw [converted, h]
  rfl

/-- A conversion keeps the attribute and the relationship. -/
theorem kept_converted (criteria : Criteria) (schema : Schema) (settings : Settings)
    (forSearch : Bool) : (criteria.converted schema settings forSearch).path = criteria.path ∧
      (criteria.converted schema settings forSearch).relationship = criteria.relationship := by
  rw [converted]
  cases hconvert : criteria.convert 0 schema settings forSearch with
  | error error => exact ⟨rfl, rfl⟩
  | ok result =>
    obtain ⟨_, _, _, _, _, _, _, _, rfl⟩ := convert_eq_ok_iff.mp hconvert
    exact ⟨rfl, rfl⟩

/-- A conversion keeps the attribute. -/
@[simp] theorem path_converted (criteria : Criteria) (schema : Schema) (settings : Settings)
    (forSearch : Bool) : (criteria.converted schema settings forSearch).path = criteria.path :=
  (criteria.kept_converted schema settings forSearch).1

/-- A conversion keeps the relationship. -/
@[simp] theorem relationship_converted (criteria : Criteria) (schema : Schema)
    (settings : Settings) (forSearch : Bool) :
    (criteria.converted schema settings forSearch).relationship = criteria.relationship :=
  (criteria.kept_converted schema settings forSearch).2

end Criteria

/-- A list ranks documents when one of its comparisons does. -/
theorem requiresScoring_iff {rules : List Rule} : requiresScoring rules = true ↔
    ∃ criteria, Rule.criteria criteria ∈ rules ∧ criteria.relationship.isFullText = true := by
  rw [requiresScoring, List.any_eq_true]
  constructor
  · rintro ⟨rule, hrule, hscores⟩
    cases rule with
    | separator mark => simp at hscores
    | logical connective => simp at hscores
    | criteria criteria => exact ⟨criteria, hrule, hscores⟩
  · rintro ⟨criteria, hcriteria, hscores⟩
    exact ⟨_, hcriteria, hscores⟩

/-- Ranking depends on the relationships of the comparisons alone. -/
theorem requiresScoring_map (change : Criteria → Criteria)
    (h : ∀ criteria, (change criteria).relationship = criteria.relationship) (rules : List Rule) :
    requiresScoring (rules.map (Rule.map change)) = requiresScoring rules := by
  rw [requiresScoring, List.any_map, requiresScoring]
  congr 1
  funext rule
  cases rule with
  | separator mark => rfl
  | logical connective => rfl
  | criteria single => exact congrArg Relationship.isFullText (h single)

/-- Converting a list converts each of its criteria. -/
theorem convertFrom_eq_ok {index : Nat} {forSearch : Bool} {rules others : List Rule}
    (h : convertFrom index schema settings forSearch rules = .ok others) :
    others = rules.map (Rule.map fun criteria => criteria.converted schema settings forSearch) ∧
      ∀ criteria, Rule.criteria criteria ∈ rules →
        criteria.convert 0 schema settings forSearch =
          .ok (criteria.converted schema settings forSearch) := by
  induction rules generalizing index others with
  | nil =>
    obtain rfl : [] = others := Except.ok.inj h
    simp
  | cons rule rules ih =>
    cases rule with
    | separator mark =>
      obtain ⟨rest, hrest, h⟩ := Outcome.bind_eq_ok_iff.mp h
      obtain rfl : _ = others := Except.ok.inj h
      obtain ⟨rfl, hall⟩ := ih hrest
      exact ⟨rfl, by simpa using hall⟩
    | logical connective =>
      obtain ⟨rest, hrest, h⟩ := Outcome.bind_eq_ok_iff.mp h
      obtain rfl : _ = others := Except.ok.inj h
      obtain ⟨rfl, hall⟩ := ih hrest
      exact ⟨rfl, by simpa using hall⟩
    | criteria criteria =>
      obtain ⟨found, hfound, h⟩ := Outcome.bind_eq_ok_iff.mp h
      obtain ⟨rest, hrest, h⟩ := Outcome.bind_eq_ok_iff.mp h
      obtain rfl : _ = others := Except.ok.inj h
      obtain ⟨rfl, hall⟩ := ih hrest
      have hconvert := Criteria.convert_place 0 hfound
      have hsame : criteria.converted schema settings forSearch = found :=
        Criteria.converted_of_convert hconvert
      constructor
      · rw [List.map_cons, Rule.map, hsame]
      · intro other hother
        rcases List.mem_cons.mp hother with heq | hmem
        · obtain rfl := Rule.criteria.inj heq
          rw [hsame, hconvert]
        · exact hall other hmem

end FilterRules
