import FilterRules.Proofs.Document.Reduction
import Mathlib.Logic.Relation

/-!
# Reduction as rewriting

Whatever rules a template is made of, in order or not, it shows their pieces, and all that reduction
does is to rewrite them: one step puts a member, or nothing, in the place of a group without groups
inside. A list with a query has a run of such steps that leaves one member or none. What each step
keeps of the pieces is therefore kept from the rules to the query.
-/

namespace FilterRules

open Relation (ReflTransGen)

/-- One step of reduction: a group inside which and behind which no group begins gives way to what its
pieces come down to. -/
inductive Piece.Step (schema : Schema) : List Piece → List Piece → Prop
  /-- The group that gives way, among the pieces around it. -/
  | group (before after : List Piece) {inner : List Piece} {found : Option Member}
      (hinner : ∀ piece ∈ inner, piece.isInner) (hafter : Piece.opening ∉ after)
      (hfound : Piece.reduced schema inner = .ok found) :
      Piece.Step schema (before ++ Piece.opening :: (inner ++ Piece.closing :: after))
        (before ++ (found.map Piece.member).toList ++ after)

/-- What every step keeps is kept by a run of steps. -/
theorem Piece.Step.invariant {schema : Schema} {holds : List Piece → Prop}
    (hstep : ∀ pieces next, Piece.Step schema pieces next → holds pieces → holds next)
    {pieces last : List Piece} (hrun : ReflTransGen (Piece.Step schema) pieces last)
    (h : holds pieces) : holds last := by
  induction hrun with
  | refl => exact h
  | tail _ hlast ih => exact hstep _ _ hlast ih

/-- Slots that begin and end no group stand for inner pieces. -/
theorem Slot.isInner_of_shows {table : List (Option Member)} {slots : List Slot}
    {pieces : List Piece} (h : List.Forall₂ (Slot.Shows table) slots pieces)
    (hopening : Slot.opening ∉ slots) (hclosing : Slot.closing ∉ slots) :
    ∀ piece ∈ pieces, piece.isInner := by
  induction h with
  | nil => simp
  | cons hslot _ ih =>
    simp only [List.mem_cons, not_or] at hopening hclosing
    refine List.forall_mem_cons.mpr ⟨?_, ih hopening.2 hclosing.2⟩
    cases hslot with
    | opening => exact absurd rfl hopening.1
    | closing => exact absurd rfl hclosing.1
    | join connective => rfl
    | member hmember => rfl

/-- Slots that begin no group stand for pieces that begin none. -/
theorem Slot.opening_not_mem_pieces {table : List (Option Member)} {slots : List Slot}
    {pieces : List Piece} (h : List.Forall₂ (Slot.Shows table) slots pieces)
    (hopening : Slot.opening ∉ slots) : Piece.opening ∉ pieces := by
  intro hmem
  obtain ⟨slot, hslot, hshows⟩ := Outcome.exists_mem_of_forall₂ h.flip hmem
  cases hshows
  exact hopening hslot

namespace Template

variable {schema : Schema} {template next : Template} {pieces : List Piece}

/-- No group ends in front of the first end of one. -/
theorem closing_not_mem_of_firstClosing? {slots before after : List Slot}
    (h : firstClosing? slots = some (before, after)) : Slot.closing ∉ before := by
  induction slots generalizing before after with
  | nil => simp [firstClosing?] at h
  | cons slot rest ih =>
    rw [firstClosing?] at h
    split at h
    case isTrue =>
      obtain ⟨rfl, rfl⟩ := Prod.mk.inj (Option.some.inj h)
      simp
    case isFalse hslot =>
      obtain ⟨⟨front, back⟩, hfound, hparts⟩ := Option.map_eq_some_iff.mp h
      obtain ⟨rfl, rfl⟩ := Prod.mk.inj hparts
      simpa [Ne.symm hslot] using ih hfound

/-- The slots that a step of a template reduces: those from the last beginning of a group to the first
end behind it. -/
def Reduces (template : Template) (inner : List Slot) : Prop :=
  ∃ before after rest, lastOpening? template.slots = some (before, after) ∧
    firstClosing? after = some (inner, rest)

/-- A step reduces the slots of some group. -/
theorem exists_reduces_of_step (hstep : template.step schema = .ok (some next)) :
    ∃ inner, template.Reduces inner := by
  rw [step] at hstep
  split at hstep
  case h_1 => simp at hstep
  case h_2 before after hlast =>
    split at hstep
    case h_1 => simp at hstep
    case h_2 inner rest hfirst => exact ⟨inner, before, after, rest, hlast, hfirst⟩

/-- The slots that a step reduces stand between the marks of a group, no group begins or ends among
them, and no group begins behind them. -/
theorem Reduces.exists_slots_eq {inner : List Slot} (h : template.Reduces inner) :
    ∃ before after, template.slots = before ++ Slot.opening :: (inner ++ Slot.closing :: after) ∧
      (Slot.opening ∉ inner ∧ Slot.closing ∉ inner) ∧ Slot.opening ∉ after := by
  obtain ⟨before, behind, after, hlast, hfirst⟩ := h
  obtain ⟨hslots, hcount⟩ := lastOpening?_eq_some hlast
  obtain rfl := firstClosing?_eq_some hfirst
  have hopening := List.count_eq_zero.mp hcount
  simp only [List.mem_append, List.mem_cons, not_or] at hopening
  have hclosing := closing_not_mem_of_firstClosing? hfirst
  exact ⟨before, after, hslots, ⟨hopening.1, hclosing⟩, hopening.2.2⟩

/-- A template with a step has a group inside which and behind which no group begins. -/
theorem Shows.exists_group_of_step (h : template.Shows pieces)
    (hstep : template.step schema = .ok (some next)) :
    ∃ before inner after, pieces = before ++ Piece.opening :: (inner ++ Piece.closing :: after) ∧
      (∀ piece ∈ inner, piece.isInner) ∧ Piece.opening ∉ after := by
  obtain ⟨slots, hreduces⟩ := exists_reduces_of_step hstep
  obtain ⟨before, after, hslots, ⟨hopening, hclosing⟩, hafter⟩ := hreduces.exists_slots_eq
  have heach := h.each
  rw [hslots] at heach
  obtain ⟨front, rest, rfl, _, hrest⟩ := Outcome.exists_append_of_forall₂ heach
  cases hrest with
  | cons hbegin hrest =>
    obtain ⟨group, rest, rfl, hgroup, hrest⟩ := Outcome.exists_append_of_forall₂ hrest
    cases hrest with
    | @cons _ _ _ back hend hback =>
      cases hbegin
      cases hend
      refine ⟨front, group, back, rfl, ?_, ?_⟩
      · exact Slot.isInner_of_shows hgroup hopening hclosing
      · exact Slot.opening_not_mem_pieces hback hafter

/-- A step of a template rewrites the pieces that it shows. -/
theorem Shows.exists_step (h : template.Shows pieces)
    (hstep : template.step schema = .ok (some next)) :
    ∃ left, Piece.Step schema pieces left ∧ next.Shows left := by
  obtain ⟨before, inner, after, rfl, hinner, hafter⟩ := h.exists_group_of_step hstep
  cases hfound : Piece.reduced schema inner with
  | error error =>
    have hfault := step_group_error h hinner hafter hfound
    simp [hstep] at hfault
  | ok found =>
    obtain ⟨reached, hreached, hshows⟩ := step_group h hinner hafter hfound
    obtain rfl : next = reached := by simpa [hstep] using hreached
    exact ⟨_, .group before after hinner hafter hfound, hshows⟩

/-- Reduction ends without a step. -/
theorem reduce_of_none (h : template.step schema = .ok none) :
    template.reduce schema = .ok template := by
  rw [reduce]
  split <;> simp_all

/-- Reduction of a template rewrites the pieces that it shows, step by step. -/
theorem Shows.exists_run {reached : Template} (h : template.Shows pieces)
    (hreduce : template.reduce schema = .ok reached) :
    ∃ left, ReflTransGen (Piece.Step schema) pieces left ∧ reached.Shows left := by
  induction template using Template.reduce.induct schema generalizing pieces with
  | case1 template error hstep =>
    rw [reduce_of_error hstep] at hreduce
    simp at hreduce
  | case2 template hstep =>
    rw [reduce_of_none hstep] at hreduce
    obtain rfl := Except.ok.inj hreduce
    exact ⟨pieces, .refl, h⟩
  | case3 template next hstep ih =>
    obtain ⟨middle, hfirst, hmiddle⟩ := h.exists_step hstep
    rw [reduce_of_step hstep] at hreduce
    obtain ⟨left, hrun, hleft⟩ := ih hmiddle hreduce
    exact ⟨left, .head hfirst hrun, hleft⟩

/-- A template that holds a query shows one member or none. -/
theorem Shows.exists_of_result {query : DocumentQuery} (h : template.Shows pieces)
    (hresult : template.result = .ok query) :
    ∃ found : Option Member, pieces = (found.map Piece.member).toList ∧
      query = found.elim .matchAll Member.toQuery := by
  have hshows : ∃ found : Option Member, pieces = (found.map Piece.member).toList := by
    have heach := h.each
    rw [Template.result] at hresult
    split at hresult
    case h_1 hslots =>
      rw [hslots] at heach
      cases heach
      exact ⟨none, rfl⟩
    case h_2 index hslots =>
      rw [hslots] at heach
      cases heach with
      | cons hslot hrest =>
        cases hslot with
        | @member _ member _ =>
          cases hrest
          exact ⟨some member, rfl⟩
    case h_3 => simp at hresult
  obtain ⟨found, rfl⟩ := hshows
  exact ⟨found, rfl, Except.ok.inj (hresult.symm.trans h.result)⟩

/-- The comparisons of rules with a template have clauses. -/
theorem haveClauses_of_layOut {rules : List Rule} {slots : List Slot}
    {table : List (Option Member)} (h : layOut slots table schema rules = .ok template) :
    Rule.HaveClauses schema rules := by
  induction rules generalizing slots table with
  | nil => simp [Rule.HaveClauses]
  | cons rule rules ih =>
    intro criteria hcriteria
    match rule with
    | .separator .opening => exact ih h criteria (by simpa using hcriteria)
    | .separator .closing => exact ih h criteria (by simpa using hcriteria)
    | .logical connective => exact ih h criteria (by simpa using hcriteria)
    | .criteria first =>
      obtain ⟨clause, hclause, h⟩ := Outcome.bind_eq_ok_iff.mp h
      rcases List.mem_cons.mp hcriteria with hfirst | hrest
      · obtain rfl := Rule.criteria.inj hfirst
        exact ⟨clause, hclause⟩
      · exact ih h criteria hrest

end Template

/-- A list with a query, whatever the order of its rules, has pieces, and a run of steps from these to
the member that the query is of, or to nothing for the query of all documents. -/
theorem DocumentQuery.exists_run_of_ofRules {schema : Schema} {rules : List Rule}
    {query : DocumentQuery} (h : DocumentQuery.ofRules rules schema = .ok query) :
    ∃ pieces, ∃ found : Option Member, List.Forall₂ (Rule.Laid schema) rules pieces ∧
      ReflTransGen (Piece.Step schema) pieces (found.map Piece.member).toList ∧
      query = found.elim .matchAll Member.toQuery := by
  obtain ⟨_, hlaid, _⟩ := Outcome.bind_eq_ok_iff.mp h
  obtain ⟨pieces, hpieces⟩ := Rule.exists_pieces (Template.haveClauses_of_layOut hlaid)
  obtain ⟨template, hshows, hquery⟩ := DocumentQuery.exists_template_of_pieces hpieces
  rw [hquery] at h
  obtain ⟨reached, hreduce, hresult⟩ := Outcome.bind_eq_ok_iff.mp h
  obtain ⟨left, hrun, hleft⟩ := Template.Shows.exists_run hshows hreduce
  obtain ⟨found, rfl, hfound⟩ := hleft.exists_of_result hresult
  exact ⟨pieces, found, hpieces, hrun, hfound⟩

end FilterRules
