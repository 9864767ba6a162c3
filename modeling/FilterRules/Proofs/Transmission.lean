import FilterRules.Proofs.Calendar.Instant
import FilterRules.Proofs.Numeral.Finite
import FilterRules.Proofs.Projection
import FilterRules.Proofs.Rule.Travel

/-!
# Converted rules on the way

Converted rules are sent and read again like any others. Their literals are numbers that are finite,
truth values and texts, which arrive as they were sent, and dates, which are sent as the texts that
they were read from. Conversion at the other end gives the same dates again, and leaves everything
else as it is, so that the converted rules arrive.
-/

namespace FilterRules

variable {schema : Schema} {settings : Settings} {declared : AttributeType}

namespace Literal

/-- What arrives in place of a literal: a date arrives as its text. -/
def arrived : Literal → Literal
  | .date d => .text d.isoText
  | literal => literal

/-- A literal is sent as what arrives in its place. -/
@[simp] theorem toJson_arrived (literal : Literal) : literal.arrived.toJson = literal.toJson := by
  cases literal <;> rfl

/-- A literal with a JSON form of its own arrives as it is. -/
theorem arrived_of_isWire {literal : Literal} (h : literal.isWire = true) :
    literal.arrived = literal := by
  cases literal with
  | date d => simp [isWire] at h
  | _ => rfl

/-- The number that a literal with a JSON form is or writes has a JSON form. -/
theorem isWire_of_number? {literal number : Literal} (hwire : literal.isWire = true)
    (h : literal.number? = some number) : number.isWire = true := by
  cases literal with
  | integer n =>
    obtain rfl := Option.some.inj h
    rfl
  | real x =>
    obtain rfl := Option.some.inj h
    exact hwire
  | text s =>
    rw [number?] at h
    split at h
    next n _ =>
      obtain rfl := Option.some.inj h
      rfl
    next x hread =>
      obtain rfl := Option.some.inj h
      exact Numeral.isFinite_of_number? hread
    next => simp at h
  | boolean b => simp [number?] at h
  | date d => simp [number?] at h

/-- The truth value that a literal is or writes has a JSON form. -/
theorem isWire_of_boolean? {literal truth : Literal} (h : literal.boolean? = some truth) :
    truth.isWire = true := by
  cases literal with
  | boolean b =>
    obtain rfl := Option.some.inj h
    rfl
  | text s =>
    rw [boolean?] at h
    split at h
    · obtain rfl := Option.some.inj h
      rfl
    · split at h
      · obtain rfl := Option.some.inj h
        rfl
      · simp at h
  | integer n => simp [boolean?] at h
  | real x => simp [boolean?] at h
  | date d => simp [boolean?] at h

/-- The date of a literal with a JSON form is the one that a text writes. -/
theorem exists_text_of_date? {literal date : Literal} (hwire : literal.isWire = true)
    (h : literal.date? = some date) :
    ∃ s d, literal = .text s ∧ date = .date d ∧ Instant.ofIso? s = some d ∧ d.isoText = s := by
  cases literal with
  | text s =>
    obtain ⟨d, hd, rfl⟩ := Option.map_eq_some_iff.mp h
    exact ⟨s, d, rfl, rfl, hd, Instant.isoText_of_ofIso? hd⟩
  | date d => simp [isWire] at hwire
  | boolean b => simp [date?] at h
  | integer n => simp [date?] at h
  | real x => simp [date?] at h

/-- What a literal with a JSON form is converted to has one too, or is the date that it writes. -/
theorem isWire_or_date_of_convert {literal converted : Literal} (hwire : literal.isWire = true)
    (h : literal.convert declared = .ok converted) :
    converted.isWire = true ∨ literal.date? = some converted := by
  rw [convert] at h
  cases hkind : declared.kind with
  | number =>
    simp only [hkind, elim_eq_ok_iff] at h
    exact Or.inl (isWire_of_number? hwire h)
  | boolean =>
    simp only [hkind, elim_eq_ok_iff] at h
    exact Or.inl (isWire_of_boolean? h)
  | string =>
    cases hdate : declared.isDate with
    | true =>
      simp only [hkind, hdate, if_true, elim_eq_ok_iff] at h
      exact Or.inr h
    | false =>
      simp only [hkind, hdate, Bool.false_eq_true, if_false] at h
      obtain rfl := Except.ok.inj h
      exact Or.inl rfl
  | object => simp [hkind] at h
  | unknown => simp [hkind] at h

/-- What arrives in place of a converted literal has a JSON form and is converted to that literal
again. -/
theorem convert_arrived {literal converted : Literal} (hwire : literal.isWire = true)
    (h : literal.convert declared = .ok converted) :
    converted.arrived.isWire = true ∧ converted.arrived.convert declared = .ok converted := by
  rcases isWire_or_date_of_convert hwire h with hconverted | hdate
  · rw [arrived_of_isWire hconverted]
    exact ⟨hconverted, convert_convert h⟩
  · obtain ⟨s, d, rfl, rfl, _, htext⟩ := exists_text_of_date? hwire hdate
    rw [arrived, htext]
    exact ⟨rfl, h⟩

end Literal

namespace Operand

/-- What arrives in place of an operand. -/
def arrived : Operand → Operand
  | .value literal => .value literal.arrived
  | .values literals => .values (literals.map Literal.arrived)

/-- What arrives in place of a converted operand has JSON forms and is converted to that operand
again. -/
theorem ConvertsTo.arrived {before after : Operand} (h : before.ConvertsTo declared after)
    (hwire : ∀ literal ∈ before.literals, literal.isWire = true) :
    (∀ literal ∈ after.arrived.literals, literal.isWire = true) ∧
      after.arrived.ConvertsTo declared after := by
  cases h with
  | value hliteral =>
    have harrived := Literal.convert_arrived (hwire _ (by simp [literals])) hliteral
    exact ⟨by simpa [Operand.arrived, literals] using harrived.1, .value harrived.2⟩
  | @values literals others hall =>
    have hboth : List.Forall₂ (fun literal other => literal.isWire = true ∧
        literal.convert declared = .ok other) literals others :=
      (List.forall₂_and_left _ _).mpr ⟨hwire, hall⟩
    have hothers := Outcome.forall_mem_of_forall₂ hboth fun _ _ hliteral =>
      Literal.convert_arrived hliteral.1 hliteral.2
    constructor
    · exact List.forall_mem_map.mpr fun other hother => (hothers other hother).1
    · refine .values ?_
      rw [List.forall₂_map_left_iff, List.forall₂_same]
      exact fun other hother => (hothers other hother).2

end Operand

namespace Criteria

/-- What arrives in place of a comparison. -/
def arrived (criteria : Criteria) : Criteria :=
  { criteria with operand := criteria.operand.arrived }

/-- What arrives in place of an operand has its shape. -/
@[simp] theorem hasShape_arrived (criteria : Criteria) :
    criteria.arrived.hasShape = criteria.hasShape := by
  obtain ⟨path, relationship, operand, exactMatch⟩ := criteria
  cases operand with
  | value literal => rfl
  | values literals => simp [arrived, Operand.arrived, hasShape]

/-- What arrives in place of a converted comparison arrives as it was sent, and is converted to that
comparison again. -/
theorem travels_arrived {criteria result : Criteria} (htravels : criteria.Travels)
    (h : criteria.convert 0 schema settings false = .ok result) :
    result.arrived.Travels ∧ result.arrived.convert 0 schema settings false = .ok result := by
  have hshape : result.hasShape = true := (isReady_of_convert htravels.shape h).shape
  obtain ⟨path, declared, literal, operand, hpath, hlookup, hliteral, hoperand, rfl⟩ :=
    convert_eq_ok_iff.mp h
  obtain ⟨hwire, hagain⟩ := hoperand.arrived htravels.literals
  constructor
  · exact ⟨htravels.path_ne, htravels.trimmed, (hasShape_arrived _).trans hshape, hwire, rfl⟩
  · exact convert_eq_ok_iff.mpr ⟨path, declared, literal, operand, hpath, hlookup, hliteral, hagain,
      rfl⟩

end Criteria

namespace WireRule

/-- A comparison is sent as what arrives in its place. -/
@[simp] theorem criteria_arrived (single : Criteria) :
    criteria single.arrived = criteria single := by
  obtain ⟨path, relationship, operand, exactMatch⟩ := single
  cases operand with
  | value literal => simp [criteria, Criteria.arrived, Operand.arrived]
  | values literals => simp [criteria, Criteria.arrived, Operand.arrived, Function.comp_def]

end WireRule

variable {wire : List WireRule} {rules : List Rule}

/-- A wire list has valid rules when it can be decoded and what is decoded is valid. -/
theorem validateWire_eq_ok_iff : validateWire wire schema = .ok rules ↔
    WireRule.decodeAll wire = .ok rules ∧ validate rules schema = .ok () := by
  rw [validateWire, Outcome.bind_eq_ok_iff]
  constructor
  · rintro ⟨decoded, hdecode, h⟩
    obtain ⟨⟨⟩, hvalid, h⟩ := Outcome.bind_eq_ok_iff.mp h
    obtain rfl := Except.ok.inj h
    exact ⟨hdecode, hvalid⟩
  · rintro ⟨hdecode, hvalid⟩
    exact ⟨rules, hdecode, by rw [hvalid]; rfl⟩

/-- What arrives in place of the converted rules of a list. -/
def arrivedRules (rules : List Rule) (schema : Schema) (settings : Settings) : List Rule :=
  rules.map (Rule.map fun criteria => (criteria.converted schema settings false).arrived)

/-- The converted rules of a list are sent as what arrives in their place. -/
theorem map_ofRule_arrivedRules (rules : List Rule) (schema : Schema) (settings : Settings) :
    (arrivedRules rules schema settings).map WireRule.ofRule =
      (convertedRules rules schema settings false).map WireRule.ofRule := by
  rw [arrivedRules, convertedRules, List.map_map, List.map_map]
  refine List.map_congr_left fun rule _ => ?_
  cases rule with
  | separator mark => rfl
  | logical connective => rfl
  | criteria single => exact WireRule.criteria_arrived _

/-- What arrives in place of the converted rules of a list that was read is valid, arrives as it is,
and is converted to those rules again. -/
theorem arrivedRules_of_validateWire (settings : Settings)
    (h : validateWire wire schema = .ok rules) :
    WireRule.decodeAll ((arrivedRules rules schema settings).map WireRule.ofRule) =
        .ok (arrivedRules rules schema settings) ∧
      validate (arrivedRules rules schema settings) schema = .ok () ∧
      convertedRules (arrivedRules rules schema settings) schema settings false =
        convertedRules rules schema settings false := by
  obtain ⟨hdecode, hvalid⟩ := validateWire_eq_ok_iff.mp h
  obtain ⟨hne, htravels⟩ := WireRule.travels_of_decodeAll hdecode
  have hagain : ∀ single, Rule.criteria single ∈ rules →
      (single.converted schema settings false).arrived.Travels ∧
        (single.converted schema settings false).arrived.convert 0 schema settings false =
          .ok (single.converted schema settings false) := fun single hsingle =>
    Criteria.travels_arrived (htravels single hsingle)
      (convert_of_validate settings false hvalid single hsingle)
  refine ⟨?_, ?_, ?_⟩
  · refine WireRule.decodeAll_map_ofRule_iff.mpr ⟨by simpa [arrivedRules] using hne, ?_⟩
    intro single hsingle
    obtain ⟨before, hbefore, rfl⟩ := Rule.criteria_mem_map.mp hsingle
    exact (hagain before hbefore).1
  · refine validate_map hvalid fun single hsingle => ?_
    obtain ⟨hsent, hconvert⟩ := hagain single hsingle
    exact (Criteria.check_eq_ok_iff settings false).mpr ⟨hsent.shape, _, hconvert⟩
  · rw [arrivedRules, convertedRules, convertedRules, List.map_map, Rule.map_comp_map]
    exact Rule.map_congr fun single hsingle =>
      Criteria.converted_of_convert (hagain single hsingle).2

/-- The converted rules of a list that was read can be sent and read again, and give themselves when
they are converted once more. -/
theorem validateWire_converted (settings : Settings) (h : validateWire wire schema = .ok rules) :
    ∃ converted, convertRules rules schema settings false = .ok converted ∧
      ∃ arrived, validateWire (converted.map WireRule.ofRule) schema = .ok arrived ∧
        convertRules arrived schema settings false = .ok converted := by
  have hvalid := (validateWire_eq_ok_iff.mp h).2
  obtain ⟨hdecode, hagain, hsame⟩ := arrivedRules_of_validateWire settings h
  refine ⟨_, convertRules_of_validate settings false hvalid, arrivedRules rules schema settings,
    ?_, ?_⟩
  · rw [map_ofRule_arrivedRules] at hdecode
    exact validateWire_eq_ok_iff.mpr ⟨hdecode, hagain⟩
  · rw [convertRules_of_validate settings false hagain, hsame]

/-- An attribute with blanks, a whole number beyond the signed ones, a text that writes a number and a
date with a leap second. -/
theorem validateWire_converted_leap :
    let schema : Schema := (Schema.empty.insert "price" .ofNumbers).insert "sold" .ofDates
    let price : WireRule :=
      { kind := some "criteria", path := some " price ", relationship := some "IN"
        values := some (.array [.number (.whole 0x8000000000000001 (by decide)), .text "1.50"]) }
    let sold : WireRule :=
      { kind := some "criteria", path := some "sold", relationship := some "LT"
        value := some (.text "2016-12-31T23:59:60.000Z") }
    let wire : List WireRule := [WireRule.separator .opening, price, WireRule.logical .or, sold,
      WireRule.separator .closing]
    let rules : List Rule := [.separator .opening,
      .criteria ⟨"price", .oneOf, .values [.real ⟨0x43E0000000000000⟩, .text "1.50"], false⟩,
      .logical .or,
      .criteria ⟨"sold", .less, .value (.text "2016-12-31T23:59:60.000Z"), false⟩,
      .separator .closing]
    validateWire wire schema = .ok rules ∧
      ∃ converted, convertRules rules schema {} false = .ok converted ∧
        ∃ arrived, validateWire (converted.map WireRule.ofRule) schema = .ok arrived ∧
          convertRules arrived schema {} false = .ok converted := by
  intro schema price sold wire rules
  have hvalid : validateWire wire schema = .ok rules := by decide +kernel
  exact ⟨hvalid, validateWire_converted {} hvalid⟩

end FilterRules
