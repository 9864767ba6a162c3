import FilterRules.Proofs.Document.Reading
import FilterRules.Proofs.Spec.Conjunction
import FilterRules.Proofs.Transmission

/-!
# Compiled document queries are legible

Whatever specification a document query is compiled from, it is read back from its JSON: its literals
come from JSON and were converted, so that every number is finite and every date has the text that it
was read from, and reduction makes no other clauses than those of the comparisons and those that ask for
an element. Two compiled queries with the same JSON are therefore the same query.
-/

namespace FilterRules

namespace Literal

variable {declared : AttributeType} {literal converted : Literal}

/-- A literal with a JSON form of its own is read back from it. -/
theorem isLegible_of_isWire (h : literal.isWire = true) : literal.IsLegible := by
  have hread : ofJson? literal.toJson = some literal := ofJson?_toJson_iff.mpr h
  cases literal with
  | date d => simp [isWire] at h
  | real x =>
    rw [IsLegible, toDocumentJson, ← hread, toJson, Json.ofBinary64]
    · cases JsonNumber.real? x <;> rfl
    · simp
  | _ => exact hread

/-- A converted literal is read back from its JSON, a date from the text that it was read from. -/
theorem isLegible_of_convert (hwire : literal.isWire = true)
    (h : literal.convert declared = .ok converted) : converted.IsLegible := by
  rcases isWire_or_date_of_convert hwire h with hconverted | hdate
  · exact isLegible_of_isWire hconverted
  · obtain ⟨s, d, rfl, rfl, hread, htext⟩ := exists_text_of_date? hwire hdate
    have hjson : ofDocumentJson? (date d).toDocumentJson = (Instant.ofIso? d.isoText).map .date := rfl
    rw [IsLegible, hjson, htext, hread]
    rfl

end Literal

/-- Every literal of a converted operand comes from one of the operand. -/
theorem Operand.ConvertsTo.exists_mem {declared : AttributeType} {before after : Operand}
    (h : before.ConvertsTo declared after) {converted : Literal} (hmem : converted ∈ after.literals) :
    ∃ literal ∈ before.literals, literal.convert declared = .ok converted := by
  cases h with
  | value hliteral =>
    obtain rfl := List.mem_singleton.mp hmem
    exact ⟨_, List.mem_singleton_self _, hliteral⟩
  | values hall => exact Outcome.exists_mem_of_forall₂ hall.flip hmem

namespace Criteria

variable {schema : Schema} {criteria : Criteria}

/-- The literal that a selection compares its key with is read back from its JSON. -/
theorem Selects.isLegible {literal : Literal} (h : criteria.Selects schema literal) :
    literal.IsLegible := by
  obtain ⟨array, key, value, element, found, _, hfound, rfl⟩ := h
  have htext : (Literal.text value).IsLegible := Literal.isLegible_of_isWire rfl
  have hliteral := AttributePath.emittedFilter_eq_ok_iff.mp hfound
  rw [AttributePath.filterLiteral] at hliteral
  split at hliteral
  · obtain rfl := Except.ok.inj hliteral
    exact htext
  · obtain ⟨converted, hconverted, rfl⟩ := Outcome.map_eq_ok_iff.mp hliteral
    exact Literal.isLegible_of_convert rfl hconverted

/-- The condition of a comparison has an operator and the literals of the comparison. -/
theorem isLegible_condition {condition : Condition} (h : criteria.condition = .ok condition)
    (hliterals : ∀ literal ∈ criteria.operand.literals, literal.IsLegible) :
    condition.IsLegible ∧ ∀ value, condition ≠ .equals value := by
  have hscalar : ∀ literal, criteria.scalar = .ok literal → literal.IsLegible := by
    intro literal hliteral
    rw [scalar] at hliteral
    split at hliteral
    case h_1 found hoperand =>
      obtain rfl := Except.ok.inj hliteral
      exact hliterals found (by simp [hoperand, Operand.literals])
    case h_2 => simp at hliteral
  have hseveral : ∀ literals, criteria.several = .ok literals →
      ∀ literal ∈ literals, literal.IsLegible := by
    intro literals hsome
    rw [several] at hsome
    split at hsome
    case h_1 found hoperand =>
      obtain rfl := Except.ok.inj hsome
      simpa [hoperand, Operand.literals] using hliterals
    case h_2 => simp at hsome
  rcases Criteria.condition_cases h with
    ⟨_, literal, hliteral, rfl⟩ | ⟨_, literals, hliterals, rfl⟩ | ⟨_, _, rfl⟩
  · exact ⟨hscalar literal hliteral, by simp⟩
  · exact ⟨hseveral literals hliterals, by simp⟩
  · exact ⟨trivial, by simp⟩

end Criteria

/-- Reduction keeps queries legible. -/
theorem DocumentQuery.isKept_isLegible : IsKept IsLegible where
  combine connective queries _ := by cases connective <;> trivial
  elementMatch path query := by
    have hcondition : (Condition.elementMatch query).IsLegible := trivial
    exact .single path hcondition
  seenFrom root clause h := by
    obtain ⟨path, condition⟩ := clause
    exact .single _ (h.forall_condition _ List.mem_cons_self)

/-- The clause of a comparison is legible when its literals are. -/
theorem Criteria.isLegible_clause {criteria : Criteria} {schema : Schema} {clause : FieldClause}
    (h : criteria.clause schema = .ok clause)
    (hliterals : ∀ literal ∈ criteria.operand.literals, literal.IsLegible) :
    ∀ part ∈ (DocumentQuery.fields [clause]).parts, part.IsLegible := by
  refine DocumentQuery.isKept_isLegible.forall_clause h ?_ ?_ ?_
  · exact fun field _ hcondition => .single field (isLegible_condition hcondition hliterals).1
  · intro key literal hselects
    have hselector : (Condition.equals literal).IsLegible := hselects.isLegible
    exact .single key hselector
  · intro key literal field condition hdiffer hselects hcondition
    obtain ⟨hlegible, hcompared⟩ := isLegible_condition hcondition hliterals
    exact .selected hdiffer hselects.isLegible hlegible hcompared

namespace Compiler

variable {compiler other : Compiler} {spec second : QuerySpec} {compiled found : DocumentSpec}

/-- All queries in a compiled document query are legible. -/
theorem isLegible_compileDocument (h : compiler.compileDocument spec = .ok compiled) :
    ∀ part ∈ compiled.query.parts, part.IsLegible := by
  obtain ⟨rules, query, ⟨wire, _, hdecode⟩, hquery, rfl⟩ := compileDocument_eq_ok_iff.mp h
  have hvalid := validate_of_documentQuery ⟨query, hquery⟩
  have htravels := (WireRule.travels_of_decodeAll hdecode).2
  rw [documentQuery_eq_ofRules hvalid] at hquery
  have hkept := DocumentQuery.isKept_isLegible.forall_ofRules hquery fun criteria clause hmem hclause => by
    obtain ⟨before, hbefore, rfl⟩ := Rule.criteria_mem_map.mp hmem
    obtain ⟨_, declared, _, operand, _, _, _, hoperand, hresult⟩ := Criteria.convert_eq_ok_iff.mp
      (convert_of_validate compiler.settings false hvalid before hbefore)
    refine Criteria.isLegible_clause hclause fun literal hliteral => ?_
    rw [hresult] at hliteral
    obtain ⟨given, hgiven, hconvert⟩ := hoperand.exists_mem hliteral
    exact Literal.isLegible_of_convert ((htravels before hbefore).literals given hgiven) hconvert
  rcases hkept with rfl | hall
  · simp [DocumentQuery.parts, DocumentQuery.IsLegible]
  · exact hall

/-- A compiled document query is read back from its JSON. -/
theorem ofJson?_toJson_compileDocument (h : compiler.compileDocument spec = .ok compiled) :
    DocumentQuery.ofJson? compiled.query.toJson = some compiled.query :=
  DocumentQuery.ofJson?_toJson compiled.query (isLegible_compileDocument h)

/-- Two compiled document queries with the same JSON are the same query, whatever the names of their
attributes are. -/
theorem toJson_compileDocument_injective (h : compiler.compileDocument spec = .ok compiled)
    (hother : other.compileDocument second = .ok found)
    (hsame : compiled.query.toJson = found.query.toJson) : compiled.query = found.query := by
  have hread := ofJson?_toJson_compileDocument h
  rw [hsame, ofJson?_toJson_compileDocument hother] at hread
  exact (Option.some.inj hread).symm

/-- A selection from a list that is named like a connective, with marks that it needs and with more. -/
theorem toJson_compileDocument_injective_connective :
    let compiler : Compiler :=
      ⟨(Schema.empty.insert "$and.price" .ofNumbers).insert "$and.$or" .ofStrings, {}⟩
    let price : WireRule :=
      { kind := some "criteria", path := some "$and[$or:$eq].price", relationship := some "EQ"
        value := some (.number (.real ⟨0x4000000000000000⟩ (by decide))) }
    let opening : WireRule := .separator .opening
    let closing : WireRule := .separator .closing
    let spec : QuerySpec := .ofRules "product" [opening, price, closing]
    let marked : QuerySpec := .ofRules "product" [opening, opening, price, closing, closing]
    let query : DocumentQuery := .fields [.mk "$and" (.elementMatch (.fields [
      .mk "$or" (.equals (.text "$eq")),
      .mk "price" (.compare .equal (.real ⟨0x4000000000000000⟩))]))]
    compiler.compileDocument spec = .ok ⟨"product", query, none⟩ ∧
      ∃ found, compiler.compileDocument marked = .ok found ∧
        query.toJson = found.query.toJson ∧ query = found.query := by
  intro compiler price opening closing spec marked query
  let single : Criteria := ⟨"$and[$or:$eq].price", .equal, .value (.real ⟨0x4000000000000000⟩), false⟩
  let rules : List Rule := [.separator .opening, .criteria single, .separator .closing]
  have hrules : WireRule.decodeAll [opening, price, closing] = .ok rules := by decide +kernel
  have hmarked : WireRule.decodeAll [opening, opening, price, closing, closing] =
      .ok (.separator .opening :: (rules ++ [.separator .closing])) := by decide +kernel
  have hquery : compiler.documentQuery rules = .ok query := by cbv
  have hfound : compiler.documentQuery (.separator .opening :: (rules ++ [.separator .closing])) =
      .ok query := by cbv
  have hspec : compiler.compileDocument spec = .ok ⟨"product", query, none⟩ :=
    compileDocument_eq_ok_iff.mpr ⟨rules, query, ⟨_, rfl, hrules⟩, hquery, rfl⟩
  have hother : compiler.compileDocument marked = .ok ⟨"product", query, none⟩ :=
    compileDocument_eq_ok_iff.mpr ⟨_, query, ⟨_, rfl, hmarked⟩, hfound, rfl⟩
  exact ⟨hspec, _, hother, rfl, toJson_compileDocument_injective hspec hother rfl⟩

end Compiler

end FilterRules
