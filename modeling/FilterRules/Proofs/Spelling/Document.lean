import FilterRules.Proofs.Document.Clause
import FilterRules.Proofs.Projection
import FilterRules.Proofs.Schema.Grouping
import FilterRules.Proofs.Spelling.Rules

/-!
# Document queries under the canonical spelling

The clause of a comparison without a selection has the attribute as it stands for its field. No step
from clauses to a query forgets a field: a group of clauses on one list shows them from there, and from
there no two fields look the same. A document query is therefore the same under the canonical spelling
exactly when every comparison without a selection has that spelling already.
-/

namespace FilterRules

open Outcome (Related)

variable {schema : Schema}

/-- Members of the same kind. -/
inductive Member.Alike : Member → Member → Prop
  /-- Two clauses. -/
  | clause (first second : FieldClause) : Member.Alike (.clause first) (.clause second)
  /-- Two joined queries. -/
  | query (first second : DocumentQuery) : Member.Alike (.query first) (.query second)

namespace Member

/-- Members of the same kind are known from their queries. -/
theorem Alike.toQuery_inj {first second : Member} (h : first.Alike second) :
    first.toQuery = second.toQuery ↔ first = second := by
  cases h <;> simp [toQuery]

/-- Lists of members of the same kinds are known from their queries. -/
theorem map_toQuery_inj {members others : List Member} (h : List.Forall₂ Alike members others) :
    members.map toQuery = others.map toQuery ↔ members = others := by
  induction h with
  | nil => simp
  | cons hfirst _ ih => rw [List.map_cons, List.map_cons, List.cons.injEq, List.cons.injEq,
      hfirst.toQuery_inj, ih]

/-- Members of the same kinds all are clauses, or not all of them are. -/
theorem isSome_clauses?_of_alike {members others : List Member}
    (h : List.Forall₂ Alike members others) :
    (clauses? members).isSome = (clauses? others).isSome := by
  induction h with
  | nil => rfl
  | cons hfirst _ ih =>
    cases hfirst with
    | clause first second => simpa [clauses?] using ih
    | query first second => rfl

end Member

/-- Queries joined by one connective are known from what is joined. -/
theorem DocumentQuery.combine_inj {connective : Connective} {queries others : List DocumentQuery} :
    combine connective queries = combine connective others ↔ queries = others := by
  cases connective <;> simp [combine]

/-- Clauses below a place are known from what they look like from there. -/
theorem FieldClause.map_seenFrom_inj {root : String} {clauses others : List FieldClause}
    (h : ∀ clause ∈ clauses, root ∈ Dotted.ancestors clause.path)
    (hothers : ∀ clause ∈ others, root ∈ Dotted.ancestors clause.path) :
    (clauses.map fun clause => DocumentQuery.fields [clause.seenFrom root]) =
        (others.map fun clause => DocumentQuery.fields [clause.seenFrom root]) ↔
      clauses = others := by
  constructor
  · intro hsame
    induction clauses generalizing others with
    | nil => exact (List.map_eq_nil_iff.mp hsame.symm).symm
    | cons clause rest ih =>
      cases others with
      | nil => simp at hsame
      | cons other more =>
        obtain ⟨habove, hrest⟩ := List.forall_mem_cons.mp h
        obtain ⟨habove', hmore⟩ := List.forall_mem_cons.mp hothers
        simp only [List.map_cons, List.cons.injEq, DocumentQuery.fields.injEq, and_true, seenFrom,
          FieldClause.mk.injEq] at hsame
        obtain ⟨⟨hpath, hcondition⟩, htail⟩ := hsame
        obtain ⟨path, condition⟩ := clause
        obtain ⟨path', condition'⟩ := other
        obtain rfl : path = path' := Dotted.relativeTo_injective habove habove' hpath
        obtain rfl : condition = condition' := hcondition
        rw [ih hrest hmore htail]
  · rintro rfl
    rfl

/-- Joined members of the same kinds are known from the joined query: neither the list that they are
grouped on nor the fields below it are lost. -/
theorem resolveGroup_inj {connective : Connective} {members others : List Member}
    (h : List.Forall₂ Member.Alike members others) :
    resolveGroup connective members schema = resolveGroup connective others schema ↔
      members = others := by
  have hplain : DocumentQuery.combine connective (members.map Member.toQuery) =
      .combine connective (others.map Member.toQuery) ↔ members = others :=
    DocumentQuery.combine_inj.trans (Member.map_toQuery_inj h)
  refine ⟨fun hsame => ?_, fun hsame => by rw [hsame]⟩
  have hkinds := Member.isSome_clauses?_of_alike h
  rw [resolveGroup, resolveGroup] at hsame
  cases hclauses : Member.clauses? members with
  | none =>
    have hothers : Member.clauses? others = none := by simpa [hclauses] using hkinds
    simp only [hclauses, hothers] at hsame
    exact hplain.mp hsame
  | some clauses =>
    obtain ⟨clauses', hclauses'⟩ : ∃ clauses', Member.clauses? others = some clauses' :=
      Option.isSome_iff_exists.mp (by simpa [hclauses] using hkinds.symm)
    simp only [hclauses, hclauses'] at hsame
    cases hroot : schema.groupingRoot? .array (clauses.map FieldClause.path) with
    | none =>
      cases hroot' : schema.groupingRoot? .array (clauses'.map FieldClause.path) with
      | none =>
        simp only [hroot, hroot'] at hsame
        exact hplain.mp hsame
      | some root' =>
        simp only [hroot, hroot'] at hsame
        exact absurd hsame (DocumentQuery.combine_ne_fields _ _ _)
    | some root =>
      cases hroot' : schema.groupingRoot? .array (clauses'.map FieldClause.path) with
      | none =>
        simp only [hroot, hroot'] at hsame
        exact absurd hsame.symm (DocumentQuery.combine_ne_fields _ _ _)
      | some root' =>
        simp only [hroot, hroot', DocumentQuery.fields.injEq, List.cons.injEq, and_true,
          FieldClause.mk.injEq, Condition.elementMatch.injEq, DocumentQuery.combine_inj] at hsame
        obtain ⟨rfl, hinner⟩ := hsame
        have habove := List.forall_mem_map.mp (Schema.groupingRoot?_mem_ancestors hroot)
        have habove' := List.forall_mem_map.mp (Schema.groupingRoot?_mem_ancestors hroot')
        rw [Member.clauses?_eq_some hclauses, Member.clauses?_eq_some hclauses',
          (FieldClause.map_seenFrom_inj habove habove').mp hinner]

/-- Members of the same kinds come down to members of the same kind or to none, and to the same one
exactly when they are the same. -/
theorem Member.joined_alike (connective : Option Connective) {members others : List Member}
    (h : List.Forall₂ Alike members others) :
    Related (fun found other => Option.Rel Alike found other ∧ (found = other ↔ members = others))
      (joined schema connective members) (joined schema connective others) := by
  cases connective with
  | none =>
    match members, others, h with
    | [], [], _ => exact .ok ⟨.none, by simp⟩
    | [_], [_], .cons hfirst .nil => exact .ok ⟨.some hfirst, by simp⟩
    | _ :: _ :: _, _ :: _ :: _, .cons _ (.cons _ _) => exact .error _
  | some connective =>
    rw [joined, joined, h.length_eq]
    split
    case isTrue => exact .error _
    case isFalse =>
      refine .ok ⟨.some (.query _ _), ?_⟩
      rw [Option.some.injEq, Member.query.injEq, resolveGroup_inj h]

/-- Members of the same kinds behind members of the same kind, or behind none. -/
theorem Member.append_alike {found other : Option Member} {members others : List Member}
    (hfound : Option.Rel Alike found other) (hmembers : List.Forall₂ Alike members others) :
    List.Forall₂ Alike (found.toList ++ members) (other.toList ++ others) ∧
      (found.toList ++ members = other.toList ++ others ↔ found = other ∧ members = others) := by
  cases hfound with
  | none => exact ⟨hmembers, by simp⟩
  | some hfirst => exact ⟨.cons hfirst hmembers, by simp⟩

/-- Whether the comparisons of a list have paths, and their selections keys and values. -/
def AreNamed (rules : List Rule) : Prop :=
  ∀ criteria, Rule.criteria criteria ∈ rules →
    criteria.isNamed = true ∧ ∃ path, AttributePath.parse? criteria.path = some path

/-- The clause of a comparison under its canonical spelling is the same when the comparison selects an
element, and else when it has that spelling already. -/
theorem Criteria.clause_respelled {criteria : Criteria} {path : AttributePath}
    (hnamed : criteria.isNamed = true)
    (hpath : AttributePath.parse? criteria.path = some path) :
    Related (fun clause other => clause = other ↔
        (criteria.selects = true ∨ criteria.canonicalPath = criteria.path))
      (criteria.clause schema) (criteria.respelled.clause schema) := by
  have hrespelled := (parse?_respelled hnamed).trans hpath
  have hcondition : criteria.respelled.condition = criteria.condition := rfl
  have hselects : criteria.selects = path.isFiltered := by rw [selects, hpath, Option.any_some]
  rw [clause, clause, hcondition, AttributePath.parseAt_eq_ok_iff.mpr hpath,
    AttributePath.parseAt_eq_ok_iff.mpr hrespelled]
  cases criteria.condition with
  | error error => exact .error error
  | ok condition =>
    simp only [Outcome.ok_bind]
    cases path with
    | plain segments =>
      refine .ok ?_
      simp [hselects, AttributePath.isFiltered, respelled, eq_comm]
    | filtered array key value element =>
      cases (AttributePath.filtered array key value element).emittedFilter schema with
      | error error => exact .error error
      | ok literal => exact .ok (by simp [hselects, AttributePath.isFiltered])

mutual

/-- An item comes down to the same under the canonical spelling exactly when its comparisons without a
selection have that spelling already, and to a member of the same kind in any case. -/
theorem Item.member?_respelled : (item : Item) → AreNamed item.rules →
    Related (fun found other => Option.Rel Member.Alike found other ∧
        (found = other ↔ IsCanonical item.rules))
      (item.member? schema) ((item.map Criteria.respelled).member? schema)
  | .criteria criteria, hnamed => by
    obtain ⟨hname, path, hpath⟩ := hnamed criteria (by simp [Item.rules])
    rw [Item.map, Item.member?, Item.member?]
    refine (Criteria.clause_respelled hname hpath).map fun clause other hclause => ?_
    refine ⟨.some (.clause clause other), ?_⟩
    simpa [IsCanonical, Item.rules] using hclause
  | .empty, _ => .ok ⟨.none, by simp [IsCanonical, Item.rules]⟩
  | .group lead items, hnamed => by
    have hinner : AreNamed items.rules := fun criteria hcriteria =>
      hnamed criteria ((Items.infix_group lead items).subset hcriteria)
    have hrules : IsCanonical (Item.group lead items).rules ↔ IsCanonical items.rules := by
      simp [IsCanonical, Item.rules]
    rw [Item.map, Item.member?, Item.member?, Items.connectives_map]
    refine (Items.members_respelled items hinner).bind fun members others hmembers => ?_
    obtain ⟨halike, hsame⟩ := hmembers
    rw [hrules, ← hsame]
    cases Connective.agreed (lead.toList ++ items.connectives) with
    | error error => exact .error error
    | ok connective => exact Member.joined_alike connective halike

/-- Items come down to the same members under the canonical spelling exactly when their comparisons
without a selection have that spelling already, and to members of the same kinds in any case. -/
theorem Items.members_respelled : (items : Items) → AreNamed items.rules →
    Related (fun members others => List.Forall₂ Member.Alike members others ∧
        (members = others ↔ IsCanonical items.rules))
      (items.members schema) ((items.map Criteria.respelled).members schema)
  | .single item, hnamed => by
    rw [Items.map, Items.members, Items.members]
    refine (Item.member?_respelled item hnamed).map fun found other hfound => ?_
    have hlist := Member.append_alike hfound.1 .nil
    simpa [hfound.2, Items.rules] using hlist
  | .joined item connective others, hnamed => by
    have hitem : AreNamed item.rules := fun criteria hcriteria =>
      hnamed criteria ((Items.infix_first item connective others).subset hcriteria)
    have hothers : AreNamed others.rules := fun criteria hcriteria =>
      hnamed criteria ((Items.infix_others item connective others).subset hcriteria)
    have hrules : IsCanonical (Items.joined item connective others).rules ↔
        IsCanonical item.rules ∧ IsCanonical others.rules := by
      rw [Items.rules, isCanonical_append]
      simp [IsCanonical]
    rw [Items.map, Items.members, Items.members]
    refine (Items.members_respelled others hothers).bind fun members after hmembers => ?_
    refine (Item.member?_respelled item hitem).bind fun found other hfound => ?_
    obtain ⟨halike, hsame⟩ := Member.append_alike hfound.1 hmembers.1
    exact .ok ⟨halike, by rw [hsame, hfound.2, hmembers.2, hrules]⟩

end

/-- Groups come down to the same members under the canonical spelling exactly when their comparisons
without a selection have that spelling already. -/
theorem Item.membersOf_respelled {groups : List Item} (hnamed : AreNamed (Item.rulesOf groups)) :
    Related (fun members others => List.Forall₂ Member.Alike members others ∧
        (members = others ↔ IsCanonical (Item.rulesOf groups)))
      (Item.membersOf schema groups)
      (Item.membersOf schema (groups.map (Item.map Criteria.respelled))) := by
  induction groups with
  | nil => exact .ok ⟨.nil, by simp [IsCanonical, Item.rulesOf]⟩
  | cons first rest ih =>
    have hrules : Item.rulesOf (first :: rest) = first.rules ++ Item.rulesOf rest := rfl
    rw [hrules] at hnamed ⊢
    have hfirst : AreNamed first.rules := fun criteria hcriteria =>
      hnamed criteria (List.mem_append_left _ hcriteria)
    have hrest : AreNamed (Item.rulesOf rest) := fun criteria hcriteria =>
      hnamed criteria (List.mem_append_right _ hcriteria)
    rw [List.map_cons, Item.membersOf, Item.membersOf]
    refine (ih hrest).bind fun members after hmembers => ?_
    refine (Item.member?_respelled first hfirst).bind fun found other hfound => ?_
    obtain ⟨halike, hsame⟩ := Member.append_alike hfound.1 hmembers.1
    exact .ok ⟨halike, by rw [hsame, hfound.2, hmembers.2, isCanonical_append]⟩

/-- Members of the same kinds have the same query exactly when they are the same. -/
theorem DocumentQuery.ofMembers_alike {members others : List Member}
    (h : List.Forall₂ Member.Alike members others) :
    Related (fun query other => query = other ↔ members = others) (ofMembers members)
      (ofMembers others) := by
  match members, others, h with
  | [], [], _ => exact .ok (by simp)
  | [_], [_], .cons hfirst .nil => exact .ok (by simp [hfirst.toQuery_inj])
  | _ :: _ :: _, _ :: _ :: _, .cons _ (.cons _ _) => exact .error _

namespace Compiler

variable {compiler : Compiler} {rules : List Rule}

/-- The document query of a valid list whose selections have keys and values is the same under the
canonical spelling exactly when all comparisons without a selection have that spelling already; a fault
is the same in any case. -/
theorem documentQuery_respelledRules (hvalid : validate rules compiler.schema = .ok ())
    (hnamed : ∀ criteria, Rule.criteria criteria ∈ rules → criteria.isNamed = true) :
    Related (fun query other => query = other ↔ IsCanonical rules) (compiler.documentQuery rules)
      (compiler.documentQuery (respelledRules rules)) := by
  have hrespelled := (validate_respelledRules_iff hvalid).mpr hnamed
  have hconverted : convertedRules (respelledRules rules) compiler.schema compiler.settings false =
      respelledRules (convertedRules rules compiler.schema compiler.settings false) :=
    convertedRules_respelledRules hvalid hnamed (by simp)
  have hclauses := haveClauses_of_validate hvalid
  have hclauses' := haveClauses_of_validate hrespelled
  have hnamed' : AreNamed (convertedRules rules compiler.schema compiler.settings false) := by
    intro criteria hcriteria
    obtain ⟨path, _, hpath, _⟩ :=
      (isReady_of_validate compiler.settings false hvalid criteria hcriteria).path
    obtain ⟨before, hbefore, rfl⟩ := Rule.criteria_mem_map.mp hcriteria
    rw [(Criteria.spelling_congr (before.path_converted _ _ _)).2.2]
    exact ⟨hnamed before hbefore, path, hpath⟩
  rw [documentQuery_eq_ofRules hvalid, documentQuery_eq_ofRules hrespelled,
    ← isCanonical_convertedRules compiler.settings false]
  rw [hconverted] at hclauses' ⊢
  -- Both lists are read as the same groups, apart from the comparisons.
  obtain ⟨groups, _, hrules⟩ := Item.exists_read
    (checkOrder_of_validate (validate_convertedRules compiler.settings false hvalid))
  rw [← hrules] at hclauses hclauses' hnamed' ⊢
  rw [respelledRules, ← Item.rulesOf_map] at hclauses' ⊢
  rw [DocumentQuery.ofRules_eq_members hclauses, DocumentQuery.ofRules_eq_members hclauses']
  refine (Item.membersOf_respelled hnamed').bind fun members others hmembers => ?_
  rw [← hmembers.2]
  exact DocumentQuery.ofMembers_alike hmembers.1

end Compiler

end FilterRules
