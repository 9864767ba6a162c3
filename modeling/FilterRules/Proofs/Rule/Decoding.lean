import FilterRules.Proofs.Outcome
import FilterRules.Rule.Wire
import Mathlib.Data.List.Forall2

/-!
# What decoding gives

A wire rule is decoded by itself: the place that it has in its list shows up in faults alone. A list
is therefore decoded rule by rule, wherever it begins, and the parts of a list are decoded each on its
own.
-/

namespace FilterRules

/-- The word of every mark names that mark. -/
@[simp] theorem Separator.ofKeyword?_keyword (mark : Separator) :
    Separator.ofKeyword? mark.keyword = some mark := by
  cases mark <;> rfl

/-- The word of every connective names that connective. -/
@[simp] theorem Connective.ofKeyword?_keyword (connective : Connective) :
    Connective.ofKeyword? connective.keyword = some connective := by
  cases connective <;> rfl

namespace WireRule

variable {index : Nat} {rule : WireRule}

/-- A criteria is decoded when it has an attribute, a known relationship and an operand for it. -/
theorem decodeCriteria_eq_ok_iff {criteria : Criteria} :
    rule.decodeCriteria index = .ok criteria ↔
      (Text.trimmed (rule.path.getD "")).isEmpty = false ∧
      ∃ relationship operand,
        Relationship.ofKeyword? (rule.relationship.getD "") = some relationship ∧
        rule.operand? relationship = some operand ∧
        criteria = { path := Text.trimmed (rule.path.getD ""), relationship, operand } := by
  cases hpath : (Text.trimmed (rule.path.getD "")).isEmpty with
  | true => simp [decodeCriteria, hpath]
  | false =>
    cases hword : Relationship.ofKeyword? (rule.relationship.getD "") with
    | none => simp [decodeCriteria, hpath, hword]
    | some relationship =>
      cases hoperand : rule.operand? relationship with
      | none => simp [decodeCriteria, hpath, hword, hoperand]
      | some operand => simp [decodeCriteria, hpath, hword, hoperand, eq_comm]

/-- A rule is decoded in the same way at every place. -/
theorem decode_place {decoded : Rule} (other : Nat) (h : rule.decode index = .ok decoded) :
    rule.decode other = .ok decoded := by
  rw [decode] at h ⊢
  split at h
  case isTrue hkind =>
    rw [if_pos hkind]
    cases hmark : Separator.ofKeyword? rule.word with
    | none => simp [hmark] at h
    | some mark => simpa [hmark] using h
  case isFalse hseparator =>
    rw [if_neg hseparator]
    split at h
    case isTrue hkind =>
      rw [if_pos hkind]
      cases hconnective : Connective.ofKeyword? rule.word with
      | none => simp [hconnective] at h
      | some connective => simpa [hconnective] using h
    case isFalse hlogical =>
      rw [if_neg hlogical]
      split at h
      case isTrue hkind =>
        obtain ⟨criteria, hcriteria, rfl⟩ := Outcome.map_eq_ok_iff.mp h
        have hother : rule.decodeCriteria other = .ok criteria :=
          decodeCriteria_eq_ok_iff.mpr (decodeCriteria_eq_ok_iff.mp hcriteria)
        rw [if_pos hkind, hother]
        rfl
      case isFalse => simp at h

/-- A list is decoded rule by rule, at whatever place it begins. -/
theorem decodeFrom_eq_ok_iff {wire : List WireRule} {rules : List Rule} :
    decodeFrom index wire = .ok rules ↔
      List.Forall₂ (fun rule decoded => rule.decode 0 = .ok decoded) wire rules := by
  induction wire generalizing index rules with
  | nil =>
    rw [List.forall₂_nil_left_iff, decodeFrom]
    simp [eq_comm]
  | cons rule rest ih =>
    rw [List.forall₂_cons_left_iff, decodeFrom, Outcome.bind_eq_ok_iff]
    constructor
    · rintro ⟨decoded, hdecoded, h⟩
      obtain ⟨others, hothers, h⟩ := Outcome.bind_eq_ok_iff.mp h
      exact ⟨decoded, others, decode_place 0 hdecoded, ih.mp hothers, (Except.ok.inj h).symm⟩
    · rintro ⟨decoded, others, hdecoded, hothers, rfl⟩
      refine ⟨decoded, decode_place index hdecoded, ?_⟩
      rw [ih.mpr hothers]
      rfl

/-- A mark is decoded as that mark. -/
@[simp] theorem decode_separator (mark : Separator) :
    (separator mark).decode index = .ok (.separator mark) := by
  simp [decode, separator, separatorKind, word]

/-- A connective is decoded as that connective. -/
@[simp] theorem decode_logical (connective : Connective) :
    (logical connective).decode index = .ok (.logical connective) := by
  simp [decode, logical, separatorKind, logicalKind, word]

/-- A comparison is decoded as that comparison when its attribute has no blanks around it and its
operand can be read back. -/
theorem decode_criteria {single : Criteria} (hpath : Text.trimmed single.path = single.path)
    (hne : single.path.isEmpty = false)
    (hoperand : (criteria single).operand? single.relationship = some single.operand)
    (hexact : single.exactMatch = false) :
    (criteria single).decode index = .ok (.criteria single) := by
  have hcriteria : (criteria single).decodeCriteria index = .ok single := by
    refine decodeCriteria_eq_ok_iff.mpr ⟨?_, single.relationship, single.operand, ?_, hoperand, ?_⟩
    · simpa [criteria, hpath] using hne
    · exact single.relationship.ofKeyword?_keyword
    · simp [criteria, hpath, ← hexact]
  have hkind : (criteria single).kind.getD "" = criteriaKind := rfl
  rw [decode, hkind, if_neg (by decide), if_neg (by decide), if_pos rfl, hcriteria]
  rfl

end WireRule

end FilterRules
