import FilterRules.Proofs.Numeral.Rounding
import FilterRules.Proofs.Rule.Decoding
import FilterRules.Proofs.Text.Trimming
import FilterRules.Validity

/-!
# Rules that travel

A rule is sent as an object and decoded at the other end. Marks and connectives always arrive. A
comparison arrives as it was sent when its attribute is a trimmed text, its operand goes with its
relationship, it is not marked for an exact comparison, and its literals are neither dates, which
are sent as texts, nor numbers that are not finite, which have no JSON form. These are also the
comparisons that decoding gives, whatever was sent.
-/

namespace FilterRules

namespace Literal

/-- Whether a literal has a JSON form of its own. -/
def isWire : Literal → Bool
  | .boolean _ | .integer _ | .text _ => true
  | .real x => x.isFinite
  | .date _ => false

/-- A literal arrives as it was sent when it has a JSON form of its own. -/
theorem ofJson?_toJson_iff {literal : Literal} :
    ofJson? literal.toJson = some literal ↔ literal.isWire = true := by
  cases literal with
  | boolean b => simp [toJson, ofJson?, isWire]
  | integer n =>
    have hlt : n.toInt < 0x8000000000000000 := Int64.toInt_lt n
    simp [toJson, Json.ofInt64, ofJson?, isWire, hlt]
  | real x =>
    cases hfinite : x.isFinite with
    | true => simp [toJson, Json.ofBinary64, JsonNumber.real?, ofJson?, isWire, hfinite]
    | false => simp [toJson, Json.ofBinary64, JsonNumber.real?, ofJson?, isWire, hfinite]
  | text s => simp [toJson, ofJson?, isWire]
  | date d => simp [toJson, ofJson?, isWire]

/-- The number nearest to a whole number of 64 bits is finite. -/
theorem isFinite_ofWhole {n : Nat} (h : n < 0x10000000000000000) :
    (Binary64.ofRatio false n 1).isFinite = true := by
  refine Binary64.isFinite_ofRatio ?_
  have hword : 0x10000000000000000 = 2 ^ 64 := by decide
  have hrange : 2 ^ 64 * 2 ^ Binary64.places ≤ 2 ^ (Binary64.places + 1023) := by
    rw [← pow_add]
    exact Nat.pow_le_pow_right (by decide) (by omega)
  rw [hword] at h
  rw [Nat.div_one, Binary64.unitsOfOne_eq]
  exact (Nat.mul_lt_mul_of_pos_right h (by positivity)).trans_le hrange

/-- What is read from JSON has a JSON form of its own. -/
theorem isWire_of_ofJson? {value : Json} {literal : Literal} (h : ofJson? value = some literal) :
    literal.isWire = true := by
  cases value with
  | number number =>
    cases number with
    | whole n inRange =>
      obtain rfl := Option.some.inj h
      split
      · rfl
      · exact isFinite_ofWhole (by omega)
    | real x finite =>
      obtain rfl := Option.some.inj h
      exact finite
  | bool b =>
    obtain rfl := Option.some.inj h
    rfl
  | text s =>
    obtain rfl := Option.some.inj h
    rfl
  | null => simp [ofJson?] at h
  | array items => simp [ofJson?] at h
  | object members => simp [ofJson?] at h

/-- A list of literals arrives as it was sent when each of them does. -/
theorem mapM_ofJson?_toJson_iff {literals : List Literal} :
    (literals.map toJson).mapM ofJson? = some literals ↔
      ∀ literal ∈ literals, literal.isWire = true := by
  rw [Outcome.mapM_map_eq_some_iff]
  exact forall₂_congr fun literal _ => ofJson?_toJson_iff

/-- Every literal of a list read from JSON has a JSON form of its own. -/
theorem isWire_of_mapM_ofJson? {items : List Json} {literals : List Literal}
    (h : items.mapM ofJson? = some literals) : ∀ literal ∈ literals, literal.isWire = true := by
  have hitems := Outcome.mapM_eq_some_iff.mp h
  exact Outcome.forall_mem_of_forall₂ hitems fun _ _ => isWire_of_ofJson?

end Literal

/-- What a comparison needs to arrive as it was sent. -/
structure Criteria.Travels (criteria : Criteria) : Prop where
  /-- There is an attribute. -/
  path_ne : criteria.path ≠ ""
  /-- The attribute has no blanks around it. -/
  trimmed : Text.IsTrimmed criteria.path.toList
  /-- The operand goes with the relationship. -/
  shape : criteria.hasShape
  /-- Every literal has a JSON form of its own. -/
  literals : ∀ literal ∈ criteria.operand.literals, literal.isWire = true
  /-- The comparison is not marked for the exact form of the field. -/
  unmarked : criteria.exactMatch = false

namespace WireRule

variable {index : Nat} {rule : WireRule}

/-- A field that holds a value is read as that value, and a field with `null` as none. -/
theorem valueField_bind_ofJson? (value : Json) :
    (valueField (some value)).bind Literal.ofJson? = Literal.ofJson? value := by
  cases value <;> rfl

/-- An operand of a relationship to one value is a literal, without a list beside it. -/
theorem operand?_eq_some_of_scalar {relationship : Relationship} {operand : Operand}
    (hset : relationship.isSet = false) :
    rule.operand? relationship = some operand ↔
      valueField rule.values = none ∧
        ∃ literal, (valueField rule.value).bind Literal.ofJson? = some literal ∧
          operand = .value literal := by
  rw [operand?, hset]
  cases valueField rule.value with
  | none => simp
  | some value =>
    cases valueField rule.values with
    | some values => simp
    | none => simp [eq_comm]

/-- An operand of a relationship to several values is a list, not empty, without a single value
beside it. -/
theorem operand?_eq_some_of_set {relationship : Relationship} {operand : Operand}
    (hset : relationship.isSet = true) :
    rule.operand? relationship = some operand ↔
      valueField rule.value = none ∧ ∃ items literals, valueField rule.values = some (.array items) ∧
        items ≠ [] ∧ items.mapM Literal.ofJson? = some literals ∧ operand = .values literals := by
  rw [operand?, hset]
  cases valueField rule.value with
  | some value => simp
  | none =>
    cases valueField rule.values with
    | none => simp
    | some values =>
      cases values with
      | array items =>
        cases hempty : items.isEmpty with
        | true => simp_all
        | false =>
          have hne : items ≠ [] := by simpa using hempty
          simp [hempty, hne, eq_comm]
      | _ => simp

/-- The operand of a comparison arrives as it was sent when it goes with the relationship and its
literals have JSON forms of their own. -/
theorem operand?_criteria_iff {single : Criteria} :
    (criteria single).operand? single.relationship = some single.operand ↔
      single.hasShape = true ∧ ∀ literal ∈ single.operand.literals, literal.isWire = true := by
  obtain ⟨path, relationship, operand, exactMatch⟩ := single
  cases hset : relationship.isSet with
  | false =>
    rw [operand?_eq_some_of_scalar hset]
    cases operand with
    | value literal =>
      have hread : (valueField (some literal.toJson)).bind Literal.ofJson? =
          Literal.ofJson? literal.toJson := valueField_bind_ofJson? _
      have hnone : valueField none = none := rfl
      simp only [criteria, hread, hnone, Criteria.hasShape, hset, Operand.literals,
        Operand.value.injEq]
      simp [Literal.ofJson?_toJson_iff]
    | values literals => simp [criteria, Criteria.hasShape, hset, valueField]
  | true =>
    rw [operand?_eq_some_of_set hset]
    cases operand with
    | value literal => simp [criteria, Criteria.hasShape, hset, valueField]
    | values literals =>
      have hread : ∀ items, valueField (some (.array (literals.map Literal.toJson))) =
          some (.array items) ↔ items = literals.map Literal.toJson := by simp [valueField, eq_comm]
      have hnone : valueField none = none := rfl
      simp only [criteria, hread, hnone, Criteria.hasShape, hset, Operand.literals,
        Operand.values.injEq, ← Literal.mapM_ofJson?_toJson_iff]
      simp

/-- A decoded operand goes with its relationship, and its literals have JSON forms of their own. -/
theorem of_operand? {relationship : Relationship} {operand : Operand}
    (h : rule.operand? relationship = some operand) (path : String) :
    Criteria.hasShape { path, relationship, operand } = true ∧
      ∀ literal ∈ operand.literals, literal.isWire = true := by
  cases hset : relationship.isSet with
  | false =>
    obtain ⟨_, literal, hliteral, rfl⟩ := (operand?_eq_some_of_scalar hset).mp h
    obtain ⟨value, _, hvalue⟩ := Option.bind_eq_some_iff.mp hliteral
    have hwire : literal.isWire = true := Literal.isWire_of_ofJson? hvalue
    simp [Criteria.hasShape, hset, Operand.literals, hwire]
  | true =>
    obtain ⟨_, items, literals, _, hne, hliterals, rfl⟩ := (operand?_eq_some_of_set hset).mp h
    have hwire := Literal.isWire_of_mapM_ofJson? hliterals
    have hnonempty : literals ≠ [] := by
      rintro rfl
      exact hne (List.forall₂_nil_right_iff.mp (Outcome.mapM_eq_some_iff.mp hliterals))
    exact ⟨by simp [Criteria.hasShape, hset, hnonempty], hwire⟩

/-- A comparison arrives as it was sent when it has what that needs. -/
theorem decode_criteria_iff {single : Criteria} :
    (criteria single).decode index = .ok (.criteria single) ↔ single.Travels := by
  constructor
  · intro h
    have hdecode : (criteria single).decodeCriteria index = .ok single := by
      have hkind : (criteria single).kind.getD "" = criteriaKind := rfl
      rw [decode, hkind, if_neg (by decide), if_neg (by decide), if_pos rfl] at h
      obtain ⟨found, hfound, hsame⟩ := Outcome.map_eq_ok_iff.mp h
      rwa [Rule.criteria.inj hsame] at hfound
    obtain ⟨hne, relationship, operand, hword, hoperand, hsingle⟩ :=
      decodeCriteria_eq_ok_iff.mp hdecode
    have hpath : Text.trimmed single.path = single.path := (congrArg Criteria.path hsingle).symm
    obtain rfl : relationship = single.relationship :=
      (congrArg Criteria.relationship hsingle).symm
    obtain rfl : operand = single.operand := (congrArg Criteria.operand hsingle).symm
    obtain ⟨hshape, hliterals⟩ := operand?_criteria_iff.mp hoperand
    refine ⟨?_, Text.trimmed_eq_self_iff.mp hpath, hshape, hliterals,
      congrArg Criteria.exactMatch hsingle⟩
    have hgiven : (criteria single).path.getD "" = single.path := rfl
    rw [hgiven, hpath] at hne
    exact fun hempty => by simp [hempty] at hne
  · intro h
    refine decode_criteria (Text.trimmed_eq_self_iff.mpr h.trimmed) ?_
      (operand?_criteria_iff.mpr ⟨h.shape, h.literals⟩) h.unmarked
    simpa using h.path_ne

/-- A decoded comparison has what it needs to be sent and decoded again. -/
theorem travels_of_decodeCriteria {single : Criteria}
    (h : rule.decodeCriteria index = .ok single) : single.Travels := by
  obtain ⟨hne, relationship, operand, _, hoperand, rfl⟩ := decodeCriteria_eq_ok_iff.mp h
  obtain ⟨hshape, hliterals⟩ := of_operand? hoperand (Text.trimmed (rule.path.getD ""))
  refine ⟨?_, ?_, hshape, hliterals, rfl⟩
  · rintro (hempty : Text.trimmed (rule.path.getD "") = "")
    simp [hempty] at hne
  · rw [Text.toList_trimmed]
    exact Text.isTrimmed_trim _

/-- A rule arrives as it was sent when it is no comparison or a comparison that travels. -/
theorem decode_ofRule_iff {sent : Rule} :
    (ofRule sent).decode index = .ok sent ↔
      ∀ single, sent = .criteria single → single.Travels := by
  cases sent with
  | separator mark => simp [ofRule]
  | logical connective => simp [ofRule]
  | criteria single => simp [ofRule, decode_criteria_iff]

/-- A rule that was decoded is no comparison or a comparison that travels. -/
theorem travels_of_decode {decoded : Rule} (h : rule.decode index = .ok decoded) :
    ∀ single, decoded = .criteria single → single.Travels := by
  rintro single rfl
  rw [decode] at h
  split at h
  case isTrue =>
    split at h
    · simp at h
    · simp at h
  case isFalse =>
    split at h
    case isTrue =>
      split at h
      · simp at h
      · simp at h
    case isFalse =>
      split at h
      case isTrue =>
        obtain ⟨found, hfound, hsame⟩ := Outcome.map_eq_ok_iff.mp h
        obtain rfl := Rule.criteria.inj hsame
        exact travels_of_decodeCriteria hfound
      case isFalse => simp at h

/-- Decoding a list that is not empty decodes each of its rules. -/
theorem decodeAll_eq_ok_iff {wire : List WireRule} {rules : List Rule} :
    decodeAll wire = .ok rules ↔ wire ≠ [] ∧
      List.Forall₂ (fun rule decoded => rule.decode 0 = .ok decoded) wire rules := by
  cases wire with
  | nil => simp [decodeAll]
  | cons first rest => simp [decodeAll, decodeFrom_eq_ok_iff]

/-- A list arrives as it was sent when it is not empty and its comparisons travel. -/
theorem decodeAll_map_ofRule_iff {rules : List Rule} :
    decodeAll (rules.map ofRule) = .ok rules ↔
      rules ≠ [] ∧ ∀ single, Rule.criteria single ∈ rules → single.Travels := by
  rw [decodeAll_eq_ok_iff, List.forall₂_map_left_iff, List.forall₂_same, Ne, List.map_eq_nil_iff]
  refine and_congr_right fun _ => ?_
  constructor
  · intro h single hsingle
    exact decode_ofRule_iff.mp (h _ hsingle) single rfl
  · rintro h rule hrule
    refine decode_ofRule_iff.mpr ?_
    rintro single rfl
    exact h single hrule

/-- A list that was decoded is not empty, and its comparisons travel. -/
theorem travels_of_decodeAll {wire : List WireRule} {rules : List Rule}
    (h : decodeAll wire = .ok rules) :
    rules ≠ [] ∧ ∀ single, Rule.criteria single ∈ rules → single.Travels := by
  obtain ⟨hne, hall⟩ := decodeAll_eq_ok_iff.mp h
  constructor
  · rintro rfl
    exact hne (List.forall₂_nil_right_iff.mp hall)
  · intro single hsingle
    exact Outcome.forall_mem_of_forall₂ hall (fun _ _ => travels_of_decode) _ hsingle single rfl

/-- The lists that arrive as they were sent are those that are not empty and whose comparisons
travel, and decoding gives no others, from whatever rules. -/
theorem decodeAll_ofRule :
    (∀ rules : List Rule, decodeAll (rules.map ofRule) = .ok rules ↔
      rules ≠ [] ∧ ∀ single, Rule.criteria single ∈ rules → single.Travels) ∧
    ∀ (wire : List WireRule) (rules : List Rule), decodeAll wire = .ok rules →
      rules ≠ [] ∧ ∀ single, Rule.criteria single ∈ rules → single.Travels := by
  constructor
  · intro rules
    exact decodeAll_map_ofRule_iff
  · intro wire rules h
    exact travels_of_decodeAll h

/-- A list with a number and with several literals arrives as it was sent, and what arrives travels. -/
theorem decodeAll_ofRule_several :
    let price : Criteria := ⟨"price", .greater, .value (.real ⟨0x3FF8000000000000⟩), false⟩
    let kind : Criteria := ⟨"type", .oneOf, .values [.text "book", .boolean true], false⟩
    let rules : List Rule := [.separator .opening, .criteria price, .logical .and, .criteria kind,
      .separator .closing]
    decodeAll (rules.map ofRule) = .ok rules ∧ price.Travels ∧ kind.Travels := by
  intro price kind rules
  have hprice : price.Travels := ⟨by decide, by decide, rfl, by decide, rfl⟩
  have hkind : kind.Travels := ⟨by decide, by decide, rfl, by decide, rfl⟩
  have hdecode : decodeAll (rules.map ofRule) = .ok rules :=
    (decodeAll_ofRule.1 rules).mpr ⟨by simp [rules], by simp [rules, hprice, hkind]⟩
  have htravels := (decodeAll_ofRule.2 _ rules hdecode).2
  exact ⟨hdecode, htravels price (by simp [rules]), htravels kind (by simp [rules])⟩

end WireRule

end FilterRules
