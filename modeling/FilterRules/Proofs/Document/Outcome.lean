import FilterRules.Proofs.Document.Piece
import FilterRules.Proofs.Rule.Item

/-!
# What a rule list comes down to

Reduction computes a recursion over the items of a list, with no slots and no table: a group comes
down to its members joined by the connective that its connectives agree on, and to its only member or
to nothing when it has none. The template of a list takes its groups from the back to the front, each
in the middle of the pieces around it, so that the induction over the items is about pieces in any
surroundings, and of several faults in a list the last one is met first.
-/

namespace FilterRules

/-- A rule and its piece in the template of a list. -/
inductive Rule.Laid (schema : Schema) : Rule → Piece → Prop
  /-- The beginning of a group. -/
  | opening : Rule.Laid schema (.separator .opening) .opening
  /-- The end of a group. -/
  | closing : Rule.Laid schema (.separator .closing) .closing
  /-- A connective. -/
  | join (connective : Connective) : Rule.Laid schema (.logical connective) (.join connective)
  /-- A comparison, and the clause that it becomes. -/
  | criteria {criteria : Criteria} {clause : FieldClause}
      (h : criteria.clause schema = .ok clause) :
      Rule.Laid schema (.criteria criteria) (.member (.clause clause))

/-- All comparisons among some rules have clauses. -/
def Rule.HaveClauses (schema : Schema) (rules : List Rule) : Prop :=
  ∀ criteria, Rule.criteria criteria ∈ rules → ∃ clause, criteria.clause schema = .ok clause

/-- The pieces of a group. -/
def Piece.group (inner : List Piece) : List Piece := [Piece.opening] ++ inner ++ [Piece.closing]

namespace Rule

variable {schema : Schema}

/-- Fewer rules have clauses too. -/
theorem HaveClauses.mono {inner rules : List Rule} (h : HaveClauses schema rules)
    (hinner : inner ⊆ rules) : HaveClauses schema inner :=
  fun criteria hcriteria => h criteria (hinner hcriteria)

/-- Rules have pieces when all of their comparisons have clauses. -/
theorem exists_pieces {rules : List Rule} (h : HaveClauses schema rules) :
    ∃ pieces, List.Forall₂ (Laid schema) rules pieces := by
  induction rules with
  | nil => exact ⟨[], .nil⟩
  | cons rule rules ih =>
    obtain ⟨pieces, hpieces⟩ := ih (h.mono (List.subset_cons_self _ _))
    cases rule with
    | separator separator =>
      cases separator
      case opening => exact ⟨_, .cons .opening hpieces⟩
      case closing => exact ⟨_, .cons .closing hpieces⟩
    | logical connective => exact ⟨_, .cons (.join connective) hpieces⟩
    | criteria criteria =>
      obtain ⟨clause, hclause⟩ := h criteria (by simp)
      exact ⟨_, .cons (.criteria hclause) hpieces⟩

/-- The comparisons of rules with pieces have clauses. -/
theorem haveClauses_of_pieces {rules : List Rule} {pieces : List Piece}
    (h : List.Forall₂ (Laid schema) rules pieces) : HaveClauses schema rules := by
  intro criteria hcriteria
  induction h with
  | nil => simp at hcriteria
  | cons hlaid _ ih =>
    rcases List.mem_cons.mp hcriteria with rfl | hmem
    · cases hlaid with
      | criteria hclause => exact ⟨_, hclause⟩
    · exact ih hmem

/-- The piece of a comparison. -/
theorem pieces_of_criteria {criteria : Criteria} {pieces : List Piece}
    (h : List.Forall₂ (Laid schema) [.criteria criteria] pieces) :
    ∃ clause, criteria.clause schema = .ok clause ∧ pieces = [Piece.member (.clause clause)] := by
  cases h with
  | cons hlaid hnil =>
    cases hlaid with
    | criteria hclause =>
      cases hnil
      exact ⟨_, hclause, rfl⟩

/-- The pieces of the rules of a group. -/
theorem exists_pieces_group {rules : List Rule} {pieces : List Piece}
    (h : List.Forall₂ (Laid schema) (.separator .opening :: (rules ++ [.separator .closing]))
      pieces) :
    ∃ inner, pieces = Piece.group inner ∧ List.Forall₂ (Laid schema) rules inner := by
  cases h with
  | cons hopening hrest =>
    obtain ⟨inner, last, rfl, hinner, hlast⟩ := Outcome.exists_append_of_forall₂ hrest
    cases hlast with
    | cons hclosing hnil =>
      cases hopening
      cases hclosing
      cases hnil
      exact ⟨inner, rfl, hinner⟩

/-- The pieces of the rules around a connective. -/
theorem exists_pieces_logical {front back : List Rule} {connective : Connective}
    {pieces : List Piece}
    (h : List.Forall₂ (Laid schema) (front ++ .logical connective :: back) pieces) :
    ∃ first second, pieces = first ++ Piece.join connective :: second ∧
      List.Forall₂ (Laid schema) front first ∧ List.Forall₂ (Laid schema) back second := by
  obtain ⟨first, rest, rfl, hfirst, hrest⟩ := Outcome.exists_append_of_forall₂ h
  cases hrest with
  | cons hjoin hsecond =>
    cases hjoin
    exact ⟨first, _, rfl, hfirst, hsecond⟩

/-- The pieces of connectives. -/
theorem pieces_of_logicals {connectives : List Connective} {pieces : List Piece}
    (h : List.Forall₂ (Laid schema) (connectives.map .logical) pieces) :
    pieces = connectives.map .join := by
  induction connectives generalizing pieces with
  | nil =>
    cases h
    rfl
  | cons connective connectives ih =>
    cases h with
    | cons hjoin hrest =>
      cases hjoin
      rw [ih hrest]
      rfl

end Rule

namespace Template

variable {schema : Schema} {before after pieces next : List Piece}

/-- A template shows one more piece behind a slot that stands for it, if the slot has no index or a
new one. -/
theorem Shows.snoc {slots : List Slot} {table left : List (Option Member)} {slot : Slot}
    {piece : Piece} (h : Shows ⟨slots, table⟩ pieces)
    (htable : ∀ place < table.length, left[place]? = table[place]?)
    (hslot : Slot.Shows left slot piece)
    (hnew : ∀ index ∈ Slot.indices [slot], table.length ≤ index) :
    Shows ⟨slots ++ [slot], left⟩ (pieces ++ [piece]) := by
  have hslots : List.Forall₂ (Slot.Shows left) slots pieces :=
    Slot.shows_congr h.each fun index hindex => htable index (Slot.index_lt h.each hindex)
  have hone : (Slot.indices [slot]).Nodup := by
    cases slot <;> simp [Slot.indices]
  constructor
  · exact List.rel_append hslots (.cons hslot .nil)
  · rw [Slot.indices_append]
    refine List.nodup_append.mpr ⟨h.distinct, hone, ?_⟩
    intro index hindex other hother
    have hindex : index < table.length := Slot.index_lt h.each hindex
    have hother : table.length ≤ other := hnew other hother
    omega

/-- The template of rules shows their pieces, behind the pieces of the rules before them. -/
theorem exists_layOut {rules : List Rule} (h : List.Forall₂ (Rule.Laid schema) rules pieces)
    {slots : List Slot} {table : List (Option Member)} (hshows : Shows ⟨slots, table⟩ before) :
    ∃ template, layOut slots table schema rules = .ok template ∧
      template.Shows (before ++ pieces) := by
  induction h generalizing slots table before with
  | nil => exact ⟨⟨slots, table⟩, rfl, by simpa using hshows⟩
  | @cons rule piece rules pieces hrule hrest ih =>
    have hpieces : before ++ piece :: pieces = before ++ [piece] ++ pieces := by simp
    rw [hpieces]
    cases hrule with
    | opening => exact ih (hshows.snoc (fun _ _ => rfl) .opening (by simp [Slot.indices]))
    | closing => exact ih (hshows.snoc (fun _ _ => rfl) .closing (by simp [Slot.indices]))
    | join connective =>
      exact ih (hshows.snoc (fun _ _ => rfl) (.join connective) (by simp [Slot.indices]))
    | @criteria criteria clause hclause =>
      have hnext : Shows ⟨slots ++ [.member table.length], table ++ [some (.clause clause)]⟩
          (before ++ [Piece.member (.clause clause)]) := by
        refine hshows.snoc ?_ (.member (by simp)) (by simp [Slot.indices])
        intro place hplace
        rw [List.getElem?_append_left hplace]
      obtain ⟨template, htemplate, hshows⟩ := ih hnext
      refine ⟨template, ?_, hshows⟩
      rw [layOut, hclause, Outcome.ok_bind, htemplate]

/-- Reduction leads from pieces to others: wherever the pieces stand in front of pieces without a
beginning of a group, it goes on as if the others stood in their place. -/
def Leads (schema : Schema) (pieces next : List Piece) : Prop :=
  ∀ before after, Piece.opening ∉ after → ∀ template : Template,
    template.Shows (before ++ pieces ++ after) →
    ∃ reached : Template, reached.Shows (before ++ next ++ after) ∧
      template.reduce schema = reached.reduce schema

/-- Reduction ends with a fault wherever the pieces stand in front of pieces without a beginning of
a group. -/
def Fails (schema : Schema) (pieces : List Piece) (error : CompileError) : Prop :=
  ∀ before after, Piece.opening ∉ after → ∀ template : Template,
    template.Shows (before ++ pieces ++ after) → template.reduce schema = .error error

/-- Reduction leads from pieces to themselves. -/
theorem Leads.refl (schema : Schema) (pieces : List Piece) : Leads schema pieces pieces :=
  fun _ _ _ template hshows => ⟨template, hshows, rfl⟩

/-- Reduction leads on from where it leads. -/
theorem Leads.trans {last : List Piece} (h : Leads schema pieces next)
    (hnext : Leads schema next last) : Leads schema pieces last := by
  intro before after hafter template hshows
  obtain ⟨middle, hmiddle, hreduce⟩ := h before after hafter template hshows
  obtain ⟨reached, hreached, hlast⟩ := hnext before after hafter middle hmiddle
  exact ⟨reached, hreached, hreduce.trans hlast⟩

/-- Reduction fails where it leads to a fault. -/
theorem Leads.fails {error : CompileError} (h : Leads schema pieces next)
    (hnext : Fails schema next error) : Fails schema pieces error := by
  intro before after hafter template hshows
  obtain ⟨reached, hreached, hreduce⟩ := h before after hafter template hshows
  exact hreduce.trans (hnext before after hafter reached hreached)

/-- Reduction leads from pieces to others among further pieces too. -/
theorem Leads.among {front back : List Piece} (h : Leads schema pieces next)
    (hback : Piece.opening ∉ back) :
    Leads schema (front ++ pieces ++ back) (front ++ next ++ back) := by
  intro before after hafter template hshows
  have hrest : Piece.opening ∉ back ++ after := by simp [hback, hafter]
  simpa using h (before ++ front) (back ++ after) hrest template (by simpa using hshows)

/-- A fault of pieces is one among further pieces too. -/
theorem Fails.among {front back : List Piece} {error : CompileError}
    (h : Fails schema pieces error) (hback : Piece.opening ∉ back) :
    Fails schema (front ++ pieces ++ back) error := by
  intro before after hafter template hshows
  have hrest : Piece.opening ∉ back ++ after := by simp [hback, hafter]
  exact h (before ++ front) (back ++ after) hrest template (by simpa using hshows)

/-- A group without groups inside gives way to what its pieces come down to. -/
theorem leads_group {inner : List Piece} {found : Option Member}
    (hinner : ∀ piece ∈ inner, piece.isInner) (hfound : Piece.reduced schema inner = .ok found) :
    Leads schema (Piece.group inner) (found.map Piece.member).toList := by
  intro before after hafter template hshows
  have hgroup : template.Shows (before ++ Piece.opening :: (inner ++ Piece.closing :: after)) := by
    simpa [Piece.group] using hshows
  obtain ⟨reached, hreached, hnext⟩ := step_group hgroup hinner hafter hfound
  exact ⟨reached, hnext, reduce_of_step hreached⟩

/-- A group without groups inside has the fault of its pieces. -/
theorem fails_group {inner : List Piece} {error : CompileError}
    (hinner : ∀ piece ∈ inner, piece.isInner)
    (herror : Piece.reduced schema inner = .error error) :
    Fails schema (Piece.group inner) error := by
  intro before after hafter template hshows
  have hgroup : template.Shows (before ++ Piece.opening :: (inner ++ Piece.closing :: after)) := by
    simpa [Piece.group] using hshows
  exact reduce_of_error (step_group_error hgroup hinner hafter herror)

/-- What reduction makes of pieces: it leads to others, or ends with a fault. -/
def Reaches (schema : Schema) (pieces : List Piece) : Except CompileError (List Piece) → Prop
  | .ok next => Leads schema pieces next
  | .error error => Fails schema pieces error

/-- Reduction takes the back of a list of pieces first, and then its front. -/
theorem Reaches.append {front back : List Piece} {first second : Except CompileError (List Piece)}
    (hfront : Reaches schema front first) (hback : Reaches schema back second)
    (hopening : ∀ next, second = .ok next → Piece.opening ∉ next) :
    Reaches schema (front ++ back) (do
      let after ← second
      let before ← first
      return before ++ after) := by
  cases second with
  | error error =>
    have hfails : Fails schema (front ++ back ++ []) error := hback.among (by simp)
    simpa [Reaches] using hfails
  | ok after =>
    have hafter : Leads schema (front ++ back ++ []) (front ++ after ++ []) :=
      Leads.among hback (by simp)
    simp only [List.append_nil] at hafter
    have hno : Piece.opening ∉ after := hopening after rfl
    cases first with
    | error error =>
      have hfails : Fails schema ([] ++ front ++ after) error := hfront.among hno
      exact hafter.fails hfails
    | ok before =>
      have hbefore : Leads schema ([] ++ front ++ after) ([] ++ before ++ after) :=
        Leads.among hfront hno
      exact hafter.trans hbefore

/-- A group gives way to what the pieces inside come down to, once these are inner ones. -/
theorem Reaches.group {outcome : Except CompileError (List Piece)}
    (h : Reaches schema pieces outcome)
    (hinner : ∀ next, outcome = .ok next → ∀ piece ∈ next, piece.isInner) :
    Reaches schema (Piece.group pieces) (do
      let inner ← outcome
      let found ← Piece.reduced schema inner
      return (found.map Piece.member).toList) := by
  cases outcome with
  | error error => exact Fails.among h (by simp)
  | ok inner =>
    have hinside : Leads schema (Piece.group pieces) (Piece.group inner) := Leads.among h (by simp)
    have hall := hinner inner rfl
    rw [Outcome.ok_bind]
    cases hfound : Piece.reduced schema inner with
    | error error => exact hinside.fails (fails_group hall hfound)
    | ok found => exact hinside.trans (leads_group hall hfound)

end Template

mutual

/-- The member that an item comes down to, if it comes down to anything. -/
def Item.member? (schema : Schema) : Item → Except CompileError (Option Member)
  | .criteria criteria => (criteria.clause schema).map fun clause => some (.clause clause)
  | .empty => .ok none
  | .group lead items => do
    let members ← items.members schema
    let connective ← Connective.agreed (lead.toList ++ items.connectives)
    Member.joined schema connective members

/-- The members that the items of a group come down to, without those that come down to nothing.
The last item is the first to be met. -/
def Items.members (schema : Schema) : Items → Except CompileError (List Member)
  | .single item => (item.member? schema).map Option.toList
  | .joined item _ others => do
    let members ← others.members schema
    let member ← item.member? schema
    return member.toList ++ members

end

/-- The members that groups come down to, without those that come down to nothing. -/
def Item.membersOf (schema : Schema) : List Item → Except CompileError (List Member)
  | [] => .ok []
  | first :: rest => do
    let members ← membersOf schema rest
    let member ← first.member? schema
    return member.toList ++ members

/-- The pieces that the items of a group come down to: their members, and the connectives. -/
def Items.pieces (schema : Schema) : Items → Except CompileError (List Piece)
  | .single item => (item.member? schema).map fun found => (found.map Piece.member).toList
  | .joined item connective others => do
    let after ← others.pieces schema
    let found ← item.member? schema
    return (found.map Piece.member).toList ++ .join connective :: after

/-- The members among the pieces that items come down to are those of the items. -/
theorem Items.members_eq (schema : Schema) (items : Items) :
    items.members schema = (items.pieces schema).map Piece.members := by
  induction items using Items.pieces.induct with
  | case1 item =>
    rw [Items.members, Items.pieces]
    cases item.member? schema with
    | error error => rfl
    | ok found => cases found <;> rfl
  | case2 item connective others ih =>
    rw [Items.members, Items.pieces, ih]
    cases others.pieces schema with
    | error error => rfl
    | ok after =>
      cases item.member? schema with
      | error error => rfl
      | ok found => cases found <;> rfl

/-- The pieces that items come down to are inner ones, with the connectives of the items. -/
theorem Items.pieces_eq_ok {schema : Schema} : (items : Items) → {next : List Piece} →
    items.pieces schema = .ok next →
    (∀ piece ∈ next, piece.isInner) ∧ Piece.joins next = items.connectives
  | .single item, next, h => by
    obtain ⟨found, _, rfl⟩ := Outcome.map_eq_ok_iff.mp h
    cases found <;> simp [Piece.isInner, Piece.joins, Items.connectives]
  | .joined item connective others, next, h => by
    obtain ⟨after, hafter, h⟩ := Outcome.bind_eq_ok_iff.mp h
    obtain ⟨found, _, h⟩ := Outcome.bind_eq_ok_iff.mp h
    obtain rfl : _ = next := Except.ok.inj h
    obtain ⟨hinner, hjoins⟩ := Items.pieces_eq_ok others hafter
    cases found <;> simp_all [Piece.isInner, Piece.joins, Items.connectives]

/-- What a group comes down to is what its pieces do, the connective in front of the items included. -/
theorem Item.member?_group {schema : Schema} (lead : Option Connective) (items : Items) :
    (Item.group lead items).member? schema = (do
      let next ← items.pieces schema
      Piece.reduced schema (lead.toList.map .join ++ next)) := by
  rw [Item.member?, Items.members_eq]
  cases hpieces : items.pieces schema with
  | error error => rfl
  | ok next =>
    have hjoins := (Items.pieces_eq_ok items hpieces).2
    simp only [Except.map, Outcome.ok_bind, Piece.reduced, Piece.joins_append, Piece.joins_map_join,
      Piece.members_append, Piece.members_map_join, hjoins, List.nil_append]

open Template (Reaches Leads)

variable {schema : Schema} {pieces : List Piece}

/-- Connectives stay in front of the pieces behind them. -/
theorem Template.Reaches.join {outcome : Except CompileError (List Piece)}
    (connectives : List Connective) (h : Reaches schema pieces outcome)
    (hopening : ∀ next, outcome = .ok next → Piece.opening ∉ next) :
    Reaches schema (connectives.map .join ++ pieces)
      (outcome.map fun next => connectives.map .join ++ next) := by
  have hjoins : Reaches schema (connectives.map .join) (.ok (connectives.map .join)) :=
    Leads.refl schema _
  have hall := hjoins.append h hopening
  cases outcome <;> exact hall

/-- Inner pieces begin no group. -/
theorem Piece.opening_not_mem (h : ∀ piece ∈ pieces, piece.isInner) : Piece.opening ∉ pieces :=
  fun hmem => by simpa [Piece.isInner] using h _ hmem

mutual

/-- The pieces of an item come down to its member. -/
theorem Item.reaches {pieces : List Piece} : (item : Item) →
    List.Forall₂ (Rule.Laid schema) item.rules pieces →
    Reaches schema pieces ((item.member? schema).map fun found => (found.map Piece.member).toList)
  | .criteria criteria, hpieces => by
    obtain ⟨clause, hclause, rfl⟩ := Rule.pieces_of_criteria hpieces
    rw [Item.member?, hclause]
    exact Leads.refl schema [.member (.clause clause)]
  | .empty, hpieces => by
    have hrules : Item.empty.rules = .separator .opening :: ([] ++ [.separator .closing]) := rfl
    rw [hrules] at hpieces
    obtain ⟨inner, rfl, hinner⟩ := Rule.exists_pieces_group hpieces
    obtain rfl := List.forall₂_nil_left_iff.mp hinner
    rw [Item.member?]
    exact Template.leads_group (by simp) rfl
  | .group lead items, hpieces => by
    obtain ⟨rest, rfl, hrest⟩ := Rule.exists_pieces_group hpieces
    obtain ⟨front, inner, rfl, hfront, hinner⟩ := Outcome.exists_append_of_forall₂ hrest
    obtain rfl := Rule.pieces_of_logicals hfront
    have hinside := Items.reaches items hinner
    have hall : ∀ next, items.pieces schema = .ok next → ∀ piece ∈ next, piece.isInner :=
      fun next hnext => (Items.pieces_eq_ok items hnext).1
    rw [Item.member?_group]
    have hgroup := (hinside.join lead.toList fun next hnext =>
      Piece.opening_not_mem (hall next hnext)).group (by
        intro next hnext
        obtain ⟨after, hafter, rfl⟩ := Outcome.map_eq_ok_iff.mp hnext
        simpa [Piece.isInner, or_imp, forall_and] using hall after hafter)
    generalize items.pieces schema = outcome at hgroup
    cases outcome <;> exact hgroup

/-- The pieces of the items of a group come down to the pieces of their members. -/
theorem Items.reaches {pieces : List Piece} : (items : Items) →
    List.Forall₂ (Rule.Laid schema) items.rules pieces →
    Reaches schema pieces (items.pieces schema)
  | .single item, hpieces => Item.reaches item hpieces
  | .joined item connective others, hpieces => by
    obtain ⟨front, rest, rfl, hfront, hrest⟩ := Rule.exists_pieces_logical hpieces
    have hothers := Items.reaches others hrest
    have hno : ∀ next, others.pieces schema = .ok next → Piece.opening ∉ next :=
      fun next hnext => Piece.opening_not_mem (Items.pieces_eq_ok others hnext).1
    have hback := hothers.join [connective] hno
    have hall := (Item.reaches item hfront).append hback (by
      intro next hnext
      obtain ⟨after, hafter, rfl⟩ := Outcome.map_eq_ok_iff.mp hnext
      simp [hno after hafter])
    rw [Items.pieces]
    generalize others.pieces schema = outcome, item.member? schema = found at hall
    cases outcome <;> cases found <;> exact hall

end

/-- The pieces of groups come down to their members. -/
theorem Item.reaches_groups {pieces : List Piece} (groups : List Item)
    (hpieces : List.Forall₂ (Rule.Laid schema) (Item.rulesOf groups) pieces) :
    Reaches schema pieces ((Item.membersOf schema groups).map (List.map Piece.member)) := by
  induction groups generalizing pieces with
  | nil =>
    obtain rfl := List.forall₂_nil_left_iff.mp hpieces
    exact Leads.refl schema []
  | cons first rest ih =>
    have hrules : Item.rulesOf (first :: rest) = first.rules ++ Item.rulesOf rest := rfl
    rw [hrules] at hpieces
    obtain ⟨front, back, rfl, hfront, hback⟩ := Outcome.exists_append_of_forall₂ hpieces
    have hall := (first.reaches hfront).append (ih hback) (by
      intro next hnext
      obtain ⟨members, _, rfl⟩ := Outcome.map_eq_ok_iff.mp hnext
      simp)
    rw [Item.membersOf]
    generalize Item.membersOf schema rest = outcome, first.member? schema = found at hall
    cases outcome with
    | error error => exact hall
    | ok members =>
      cases found with
      | error error => exact hall
      | ok member => cases member <;> exact hall

/-- The query of the members that a list comes down to: there can be one of them at most. -/
def DocumentQuery.ofMembers : List Member → Except CompileError DocumentQuery
  | [] => .ok .matchAll
  | [member] => .ok member.toQuery
  | _ => .error (.emission .malformedExpression)

/-- A template that shows members holds the query of those members. -/
theorem Template.Shows.result_members {template : Template} {members : List Member}
    (h : template.Shows (members.map Piece.member)) :
    template.result = DocumentQuery.ofMembers members := by
  obtain ⟨slots, table⟩ := template
  have hslots := h.each
  match members, slots, hslots with
  | [], [], _ => rfl
  | [member], [_], .cons (.member hmember) .nil =>
    simp [Template.result, Template.take, DocumentQuery.ofMembers, hmember, Except.map]
  | _ :: _ :: _, _ :: _ :: _, .cons (.member _) (.cons (.member _) _) => rfl

/-- The query that a template is reduced to. -/
def Template.query (template : Template) (schema : Schema) : Except CompileError DocumentQuery := do
  let reduced ← template.reduce schema
  reduced.result

/-- A list with pieces has a template that shows them, and the query of that template. -/
theorem DocumentQuery.exists_template_of_pieces {rules : List Rule} {pieces : List Piece}
    (h : List.Forall₂ (Rule.Laid schema) rules pieces) :
    ∃ template : Template, template.Shows pieces ∧
      ofRules rules schema = template.query schema := by
  have hempty : Template.Shows ⟨[], []⟩ [] := ⟨.nil, by simp [Slot.indices]⟩
  obtain ⟨template, htemplate, hshows⟩ := Template.exists_layOut h hempty
  refine ⟨template, hshows, ?_⟩
  rw [ofRules, Template.ofRules, htemplate, Outcome.ok_bind]
  rfl

/-- The query of groups whose comparisons have clauses is the query of the members that the groups
come down to. -/
theorem DocumentQuery.ofRules_eq_members {groups : List Item}
    (hclauses : Rule.HaveClauses schema (Item.rulesOf groups)) :
    DocumentQuery.ofRules (Item.rulesOf groups) schema = (do
      let members ← Item.membersOf schema groups
      DocumentQuery.ofMembers members) := by
  obtain ⟨pieces, hpieces⟩ := Rule.exists_pieces hclauses
  have hreaches := Item.reaches_groups groups hpieces
  obtain ⟨template, hshows, hquery⟩ := DocumentQuery.exists_template_of_pieces hpieces
  have hstart : template.Shows ([] ++ pieces ++ []) := by simpa using hshows
  rw [hquery, Template.query]
  cases hmembers : Item.membersOf schema groups with
  | error error =>
    rw [hmembers] at hreaches
    rw [hreaches [] [] (by simp) template hstart]
    rfl
  | ok members =>
    rw [hmembers] at hreaches
    obtain ⟨reached, hreached, hreduce⟩ := hreaches [] [] (by simp) template hstart
    have hall : reached.Shows (members.map Piece.member) := by simpa using hreached
    have hself : reached.reduce schema = .ok reached := Template.reduce_eq_self hall (by simp)
    rw [hreduce, hself]
    exact hall.result_members

/-- The query of an item whose comparisons have clauses is the query of the member that the item comes
down to. -/
theorem DocumentQuery.ofRules_item {item : Item}
    (hclauses : Rule.HaveClauses schema item.rules) :
    DocumentQuery.ofRules item.rules schema =
      (item.member? schema).map fun found => (found.map Member.toQuery).getD .matchAll := by
  have hsingle : Item.rulesOf [item] = item.rules := Item.rulesOf_single
  rw [← hsingle] at hclauses ⊢
  rw [DocumentQuery.ofRules_eq_members hclauses, Item.membersOf, Item.membersOf, Outcome.ok_bind]
  cases item.member? schema with
  | error error => rfl
  | ok found => cases found <;> rfl

end FilterRules
