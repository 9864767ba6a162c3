import FilterRules.Proofs.Document.Clause
import FilterRules.Proofs.Document.Rewriting

/-!
# Items that stand for each other

Two items that come down to the same member can stand for each other in a list, whatever the rules
around them are. The groups behind an item are reduced first, in steps that do not depend on what
stands in front of them; then both items give way to the same member, and from there on the two
templates show the same pieces, so that their tables make no difference. An item between marks of its
own comes down to what it comes down to without them, and more marks than a list needs therefore
change nothing: a comparison in a group of its own is still joined with the comparisons beside it.
-/

namespace FilterRules

namespace Piece

/-- A piece that begins and ends no group is an inner one. -/
theorem isInner_of_ne {piece : Piece} (hopening : piece ≠ opening) (hclosing : piece ≠ closing) :
    piece.isInner := by
  cases piece with
  | opening => exact absurd rfl hopening
  | closing => exact absurd rfl hclosing
  | join connective => rfl
  | member held => rfl

/-- No group begins in pieces, or the group that begins last has an end, or it has none. -/
theorem lastGroup_cases (pieces : List Piece) : opening ∉ pieces ∨
    (∃ before inner after, pieces = before ++ opening :: (inner ++ closing :: after) ∧
      (∀ piece ∈ inner, piece.isInner) ∧ opening ∉ after) ∨
    ∃ before behind, pieces = before ++ opening :: behind ∧ ∀ piece ∈ behind, piece.isInner := by
  by_cases hopening : opening ∈ pieces
  case neg => exact Or.inl hopening
  case pos =>
    right
    -- The last beginning is the first one of the pieces in reverse.
    obtain ⟨behind, before, hreverse, hlast⟩ :=
      List.eq_append_cons_of_mem (List.mem_reverse.mpr hopening)
    obtain rfl : pieces = before.reverse ++ opening :: behind.reverse := by
      simpa using congrArg List.reverse hreverse
    have hlast : opening ∉ behind.reverse := by simpa using hlast
    generalize behind.reverse = behind at hlast
    by_cases hclosing : closing ∈ behind
    case pos =>
      obtain ⟨inner, after, rfl, hfirst⟩ := List.eq_append_cons_of_mem hclosing
      simp only [List.mem_append, List.mem_cons, not_or] at hlast
      refine Or.inl ⟨_, inner, after, rfl, fun piece hpiece => isInner_of_ne ?_ ?_, hlast.2.2⟩
      · exact ne_of_mem_of_not_mem hpiece hlast.1
      · exact ne_of_mem_of_not_mem hpiece hfirst
    case neg =>
      refine Or.inr ⟨_, behind, rfl, fun piece hpiece => isInner_of_ne ?_ ?_⟩
      · exact ne_of_mem_of_not_mem hpiece hlast
      · exact ne_of_mem_of_not_mem hpiece hclosing

/-- What holds of pieces where no group begins, of pieces where the last one has no end, and of pieces
with a group when it does with a member or nothing in place of that group, holds of all pieces. -/
theorem groups_induction {holds : List Piece → Prop}
    (plain : ∀ pieces, opening ∉ pieces → holds pieces)
    (unclosed : ∀ before behind, (∀ piece ∈ behind, piece.isInner) →
      holds (before ++ opening :: behind))
    (group : ∀ before inner after, (∀ piece ∈ inner, piece.isInner) → opening ∉ after →
      (∀ found : Option Member, holds (before ++ (found.map member).toList ++ after)) →
      holds (before ++ opening :: (inner ++ closing :: after)))
    (pieces : List Piece) : holds pieces := by
  induction hlength : pieces.length using Nat.strong_induction_on generalizing pieces with
  | _ length ih =>
    rcases lastGroup_cases pieces with
      hplain | ⟨before, inner, after, rfl, hinner, hafter⟩ | ⟨before, behind, rfl, hbehind⟩
    · exact plain pieces hplain
    · refine group before inner after hinner hafter fun found => ih _ ?_ _ rfl
      have hfound : (found.map member).toList.length ≤ 1 := by cases found <;> simp
      simp only [← hlength, List.length_append, List.length_cons]
      omega
    · exact unclosed before behind hbehind

end Piece

namespace Template

variable {schema : Schema} {template other : Template} {pieces others : List Piece}

/-- Where no group ends there is no first end. -/
theorem firstClosing?_eq_none {slots : List Slot} (hslots : Slot.closing ∉ slots) :
    firstClosing? slots = none := by
  induction slots with
  | nil => rfl
  | cons slot rest ih =>
    simp only [List.mem_cons, not_or] at hslots
    have hslot : ¬ slot = .closing := fun h => hslots.1 h.symm
    simp [firstClosing?, ih hslots.2, hslot]

/-- A group that begins last and has no end is a fault. -/
theorem step_unclosed {before behind : List Piece}
    (h : template.Shows (before ++ Piece.opening :: behind))
    (hbehind : ∀ piece ∈ behind, piece.isInner) :
    template.step schema = .error (.structural .unbalancedSeparators none) := by
  obtain ⟨front, rest, hslots, _, hrest⟩ := exists_slots_append h.each
  cases hrest with
  | cons hopening hrest =>
    cases hopening
    have hlast := Slot.opening_not_mem hrest (Piece.opening_not_mem hbehind)
    have hfirst := Slot.closing_not_mem hrest hbehind
    simp only [step, hslots, lastOpening?_append front hlast, firstClosing?_eq_none hfirst]

/-- Templates that show the same pieces and have no groups hold the same query. -/
theorem Shows.result_eq (h : template.Shows pieces) (hother : other.Shows pieces) :
    template.result = other.result := by
  obtain ⟨slots, table⟩ := template
  obtain ⟨second, left⟩ := other
  match pieces, slots, second, h.each, hother.each with
  | [], [], [], _, _ => rfl
  | [_], [_], [_], .cons hslot .nil, .cons hsecond .nil =>
    cases hslot with
    | opening => cases hsecond; rfl
    | closing => cases hsecond; rfl
    | join connective => cases hsecond; rfl
    | member hmember =>
      cases hsecond with
      | member hfound => simp [Template.result, take, hmember, hfound, Except.map]
  | _ :: _ :: _, first :: _ :: _, last :: _ :: _, _, _ => cases first <;> cases last <;> rfl

/-- Two lists of pieces are alike when any two templates that show them hold the same query, or have the
same fault. -/
def Alike (schema : Schema) (pieces others : List Piece) : Prop :=
  ∀ template other : Template, template.Shows pieces → other.Shows others →
    template.query schema = other.query schema

/-- Pieces that end alike are alike when they are with a member or nothing in place of the group that
begins last. -/
theorem Alike.group {before front inner after : List Piece} (hinner : ∀ piece ∈ inner, piece.isInner)
    (hafter : Piece.opening ∉ after)
    (h : ∀ found : Option Member, Alike schema (before ++ (found.map Piece.member).toList ++ after)
      (front ++ (found.map Piece.member).toList ++ after)) :
    Alike schema (before ++ Piece.opening :: (inner ++ Piece.closing :: after))
      (front ++ Piece.opening :: (inner ++ Piece.closing :: after)) := by
  intro template other hshows hother
  cases hfound : Piece.reduced schema inner with
  | error error =>
    rw [query, query, reduce_of_error (step_group_error hshows hinner hafter hfound),
      reduce_of_error (step_group_error hother hinner hafter hfound)]
  | ok found =>
    obtain ⟨next, hnext, hshown⟩ := step_group hshows hinner hafter hfound
    obtain ⟨second, hsecond, hseen⟩ := step_group hother hinner hafter hfound
    rw [query, query, reduce_of_step hnext, reduce_of_step hsecond]
    exact h found next second hshown hseen

/-- Pieces are alike behind which the same pieces stand, if they are in front of all pieces where no
group begins. -/
theorem Alike.append {front back : List Piece}
    (h : ∀ after, Piece.opening ∉ after → Alike schema (front ++ after) (back ++ after))
    (after : List Piece) : Alike schema (front ++ after) (back ++ after) := by
  -- The groups behind are reduced first, and alike, until none is left or one of them has no end.
  induction after using Piece.groups_induction with
  | plain after hafter => exact h after hafter
  | unclosed before behind hbehind =>
    intro template other hshows hother
    rw [← List.append_assoc] at hshows hother
    rw [query, query, reduce_of_error (step_unclosed hshows hbehind),
      reduce_of_error (step_unclosed hother hbehind)]
  | group before inner after hinner hafter ih =>
    rw [← List.append_assoc, ← List.append_assoc]
    refine Alike.group hinner hafter fun found => ?_
    simpa only [List.append_assoc] using ih found

/-- Templates that show the same pieces hold the same query. -/
theorem Alike.refl (schema : Schema) (pieces : List Piece) : Alike schema pieces pieces := by
  have hplain : ∀ after, Piece.opening ∉ after → Alike schema ([] ++ after) ([] ++ after) := by
    intro after hafter template other hshows hother
    rw [query, query, reduce_eq_self hshows hafter, reduce_eq_self hother hafter]
    exact hshows.result_eq hother
  exact Alike.append hplain pieces

/-- Pieces that come down to the same are alike among all pieces. -/
theorem Reaches.alike {outcome : Except CompileError (List Piece)} (h : Reaches schema pieces outcome)
    (hother : Reaches schema others outcome) (before after : List Piece) :
    Alike schema (before ++ pieces ++ after) (before ++ others ++ after) := by
  refine Alike.append (fun after hafter template other hshows hseen => ?_) after
  cases outcome with
  | error error =>
    rw [query, query, h before after hafter template hshows,
      hother before after hafter other hseen]
  | ok next =>
    obtain ⟨first, hfirst, hreduce⟩ := h before after hafter template hshows
    obtain ⟨second, hsecond, hreached⟩ := hother before after hafter other hseen
    have hsame := Alike.refl schema _ first second hfirst hsecond
    rwa [query, query, ← hreduce, ← hreached] at hsame

/-- Laying out rules fails with the fault of the first comparison without a clause. -/
theorem layOut_eq_error_iff {rules : List Rule} {slots : List Slot} {table : List (Option Member)}
    {error : CompileError} : layOut slots table schema rules = .error error ↔
      (Rule.criteriaOf rules).mapM (Criteria.clause · schema) = .error error := by
  induction rules generalizing slots table with
  | nil => simp [layOut, Rule.criteriaOf]
  | cons rule rules ih =>
    cases rule with
    | separator mark => cases mark <;> exact ih
    | logical connective => exact ih
    | criteria criteria =>
      have hcriteria : Rule.criteriaOf (.criteria criteria :: rules) =
          criteria :: Rule.criteriaOf rules := rfl
      rw [layOut, hcriteria, List.mapM_cons, Outcome.bind_eq_error_iff, Outcome.bind_eq_error_iff]
      simp [ih, Outcome.bind_eq_error_iff]

end Template

open Template (Reaches)

variable {schema : Schema}

/-- Items with the same comparisons that come down to the same stand for each other among all rules. -/
theorem DocumentQuery.ofRules_interchange (before after : List Rule) {item other : Item}
    (hcriteria : Rule.criteriaOf item.rules = Rule.criteriaOf other.rules)
    (hmember : item.member? schema = other.member? schema) :
    ofRules (before ++ item.rules ++ after) schema =
      ofRules (before ++ other.rules ++ after) schema := by
  have hall : Rule.criteriaOf (before ++ item.rules ++ after) =
      Rule.criteriaOf (before ++ other.rules ++ after) := by
    simp only [Rule.criteriaOf, List.filterMap_append] at hcriteria ⊢
    rw [hcriteria]
  -- A comparison without a clause is met while the rules are laid out, before any group is reduced.
  cases htemplate : Template.ofRules (before ++ item.rules ++ after) schema with
  | error error =>
    have hother : Template.ofRules (before ++ other.rules ++ after) schema = .error error := by
      rwa [Template.ofRules, Template.layOut_eq_error_iff, ← hall, ← Template.layOut_eq_error_iff]
    rw [ofRules, ofRules, htemplate, hother]
  | ok template =>
    obtain ⟨pieces, hpieces⟩ := Rule.exists_pieces (Template.haveClauses_of_layOut htemplate)
    obtain ⟨front, last, rfl, hfront, hlast⟩ := Outcome.exists_append_of_forall₂ hpieces
    obtain ⟨first, middle, rfl, hfirst, hmiddle⟩ := Outcome.exists_append_of_forall₂ hfront
    have hclauses : Rule.HaveClauses schema other.rules := by
      intro criteria hmem
      rw [← Rule.mem_criteriaOf, ← hcriteria, Rule.mem_criteriaOf] at hmem
      exact Rule.haveClauses_of_pieces hmiddle criteria hmem
    obtain ⟨second, hsecond⟩ := Rule.exists_pieces hclauses
    have hreaches := item.reaches hmiddle
    rw [hmember] at hreaches
    obtain ⟨_, hshows, hquery⟩ := exists_template_of_pieces hpieces
    obtain ⟨_, hseen, hother⟩ :=
      exists_template_of_pieces (List.rel_append (List.rel_append hfirst hsecond) hlast)
    rw [hquery, hother]
    exact hreaches.alike (other.reaches hsecond) first last _ _ hshows hseen

namespace Marker

/-- Rules that begin with a mark can only stand where a group may begin. -/
theorem awaitsGroup_of_step {stack next : List Marker}
    (h : step stack (.separator .opening) = some next) : AwaitsGroup stack := by
  cases stack with
  | nil => exact Or.inl rfl
  | cons marker below =>
    cases marker with
    | item => simp [step] at h
    | opening => exact Or.inr trivial
    | logical => exact Or.inr trivial

/-- A comparison can only stand where an item may. -/
theorem awaitsItem_of_step {criteria : Criteria} {stack next : List Marker}
    (h : step stack (.criteria criteria) = some next) : AwaitsItem stack := by
  cases stack with
  | nil => simp [step] at h
  | cons marker below =>
    cases marker with
    | item => simp [step] at h
    | opening => trivial
    | logical => trivial

/-- An item can only stand where a group may begin, and leaves what a group leaves. -/
theorem awaitsGroup_of_item {item : Item} {stack next : List Marker}
    (h : item.rules.foldlM step stack = some next) :
    AwaitsGroup stack ∧ next = afterGroup stack := by
  have hgroup : item.isGroup → AwaitsGroup stack → next = afterGroup stack := fun hitem hstack =>
    Option.some.inj (h.symm.trans (accepts_of_derives (item.derives_group hitem) stack hstack))
  cases item with
  | criteria criteria =>
    have hstack : AwaitsItem stack := awaitsItem_of_step (by simpa [Item.rules] using h)
    have hstep := accepts_of_derives (Derives.criteria criteria) stack hstack
    rw [← afterGroup_of_ne_nil hstack.ne_nil] at hstep
    exact ⟨Or.inr hstack, Option.some.inj (h.symm.trans hstep)⟩
  | empty =>
    obtain ⟨_, hstep, _⟩ := Option.bind_eq_some_iff.mp h
    have hstack := awaitsGroup_of_step hstep
    exact ⟨hstack, hgroup rfl hstack⟩
  | group lead items =>
    obtain ⟨_, hstep, _⟩ := Option.bind_eq_some_iff.mp h
    have hstack := awaitsGroup_of_step hstep
    exact ⟨hstack, hgroup rfl hstack⟩

end Marker

/-- A list in order stays in order when one of its items is put between marks. -/
theorem checkOrder_parenthesized {before after : List Rule} {item : Item}
    (h : checkOrder (before ++ item.rules ++ after) = .ok ()) :
    checkOrder (before ++ (Item.group none (.single item)).rules ++ after) = .ok () := by
  rw [checkOrder_eq_ok_iff, List.foldlM_append, List.foldlM_append] at h ⊢
  obtain ⟨reached, hfront, hafter⟩ := Option.bind_eq_some_iff.mp h
  obtain ⟨stack, hbefore, hitem⟩ := Option.bind_eq_some_iff.mp hfront
  obtain ⟨hstack, rfl⟩ := Marker.awaitsGroup_of_item hitem
  have hgroup := Marker.accepts_of_derives
    ((Item.group none (.single item)).derives_group rfl) stack hstack
  exact Option.bind_eq_some_iff.mpr
    ⟨_, Option.bind_eq_some_iff.mpr ⟨stack, hbefore, hgroup⟩, hafter⟩

/-- Marks around an item, a comparison or a whole group at any depth, change nothing: the list has the
same query or the same fault with them, whatever stands around the item, and is in order if it was. -/
theorem DocumentQuery.ofRules_parenthesized (before after : List Rule) (item : Item)
    (schema : Schema) :
    let rules := before ++ item.rules ++ after
    let parenthesized := before ++
      (.separator .opening :: (item.rules ++ [.separator .closing])) ++ after
    ofRules parenthesized schema = ofRules rules schema ∧
      (checkOrder rules = .ok () → checkOrder parenthesized = .ok ()) := by
  intro rules parenthesized
  have hcriteria : Rule.criteriaOf (Item.group none (.single item)).rules =
      Rule.criteriaOf item.rules := Rule.criteriaOf_group none item.rules
  exact ⟨ofRules_interchange before after hcriteria item.member?_single,
    checkOrder_parenthesized⟩

/-- A comparison between marks of its own is joined with the comparison beside it in one condition on an
element. -/
theorem DocumentQuery.ofRules_parenthesized_prices :
    let schema : Schema := ⟨[("type", .ofStrings), ("prices", .nested)]⟩
    let listed : Criteria := ⟨"prices.kind", .equal, .value (.text "list"), false⟩
    let traded : Criteria := ⟨"prices.market", .equal, .value (.text "trade"), false⟩
    let before : List Rule := [.separator .opening]
    let after : List Rule := [.logical .and, .criteria traded, .separator .closing]
    let parenthesized : List Rule :=
      [.separator .opening, .separator .opening, .criteria listed, .separator .closing,
        .logical .and, .criteria traded, .separator .closing]
    checkOrder (before ++ (Item.criteria listed).rules ++ after) = .ok () ∧
      checkOrder parenthesized = .ok () ∧
      ofRules parenthesized schema = .ok (.fields [.mk "prices" (.elementMatch (.and [
        .fields [.mk "kind" (.compare .equal (.text "list"))],
        .fields [.mk "market" (.compare .equal (.text "trade"))]]))]) := by
  intro schema listed traded before after parenthesized
  have horder : checkOrder (before ++ (Item.criteria listed).rules ++ after) = .ok () := rfl
  obtain ⟨hquery, hkept⟩ := ofRules_parenthesized before after (.criteria listed) schema
  refine ⟨horder, hkept horder, hquery.trans ?_⟩
  cbv

end FilterRules
