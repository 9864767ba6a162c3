import FilterRules.Proofs.Document.Clause
import FilterRules.Proofs.Spec.Isolation

/-!
# The document query of named groups

Named groups that stand in order, each on its own, are compiled to the conjunction of the queries
that they are compiled to alone. There is one exception: when every group has a single comparison and
the fields of these comparisons lie below one list, the comparisons must hold for one element of that
list. Groups that do not stand in order can have queries alone and none together.
-/

namespace FilterRules

variable {schema : Schema}

/-- Items joined by `AND` with other comparisons. -/
theorem Item.conjoined_map (change : Criteria → Criteria) (item : Item) (others : List Item) :
    (conjoined item others).map change =
      conjoined (item.map change) (others.map (Item.map change)) := by
  have hitems : (Items.conjoined item others).map change =
      Items.conjoined (item.map change) (others.map (Item.map change)) := by
    induction others generalizing item with
    | nil => rfl
    | cons next others ih => simp [Items.conjoined, Items.map, ih]
  rw [conjoined, Item.map, hitems, conjoined]

/-- The rules of a group of items joined by `AND` have the comparisons of the items. -/
theorem Item.criteria_mem_conjoined {item : Item} {others : List Item} {single : Criteria} :
    Rule.criteria single ∈ (conjoined item others).rules ↔
      ∃ inner ∈ item :: others, Rule.criteria single ∈ inner.rules := by
  have hitems : Rule.criteria single ∈ (Items.conjoined item others).rules ↔
      ∃ inner ∈ item :: others, Rule.criteria single ∈ inner.rules := by
    induction others generalizing item with
    | nil => simp [Items.conjoined, Items.rules]
    | cons next others ih => simp [Items.conjoined, Items.rules, ih]
  simpa [conjoined, Item.rules] using hitems

/-- The members that items joined by `AND` come down to. -/
theorem Items.members_conjoined {item : Item} {others : List Item} {members : List Member}
    (h : List.Forall₂ (fun item member => item.member? schema = .ok (some member)) (item :: others)
      members) : (Items.conjoined item others).members schema = .ok members := by
  refine (Items.members_eq_ok_iff _).mpr ⟨members.map some, ?_, ?_⟩
  · rw [Items.toList_conjoined]
    exact List.forall₂_map_right_iff.mpr h
  · simp [List.flatMap_map]

/-- At least two items joined by `AND` come down to the query that joins their members. -/
theorem Item.member?_conjoined {item next : Item} {others : List Item} {members : List Member}
    (h : List.Forall₂ (fun item member => item.member? schema = .ok (some member))
      (item :: next :: others) members) :
    (Item.conjoined item (next :: others)).member? schema =
      .ok (some (.query (resolveGroup .and members schema))) := by
  have hlength := h.length_eq
  have hmany : ¬ members.length < 2 := by
    simp only [List.length_cons] at hlength
    omega
  have hagreed : Connective.agreed
      ((none : Option Connective).toList ++ (Items.conjoined item (next :: others)).connectives) =
        .ok (some .and) :=
    Connective.agreed_eq_some (by simp [Items.connectives_conjoined])
      (by simp [Items.connectives_conjoined])
  rw [Item.conjoined, Item.member?, Items.members_conjoined h, Outcome.ok_bind, hagreed,
    Outcome.ok_bind, Member.joined, if_neg hmany]

namespace Compiler

variable {compiler : Compiler}

/-- A specification is compiled by flattening, decoding and compiling its rules. -/
theorem compileDocument_eq_ok_iff {spec : QuerySpec} {compiled : DocumentSpec} :
    compiler.compileDocument spec = .ok compiled ↔ ∃ rules query,
      (∃ wire, RuleEntry.flatten spec.entries = .ok wire ∧ WireRule.decodeAll wire = .ok rules) ∧
        compiler.documentQuery rules = .ok query ∧
          compiled = ⟨spec.productType, query, spec.projection⟩ := by
  simp only [compileDocument, rulesOf, validateWire, documentQuery, Outcome.bind_eq_ok_iff,
    Outcome.pure_eq_ok, Except.ok.injEq]
  constructor
  · rintro ⟨rules, ⟨wire, hflat, _, hdecode, ⟨⟩, hvalid, rfl⟩, query, hquery, rfl⟩
    exact ⟨_, query, ⟨wire, hflat, hdecode⟩, ⟨(), hvalid, hquery⟩, rfl⟩
  · rintro ⟨rules, query, ⟨wire, hflat, hdecode⟩, ⟨⟨⟩, hvalid, hquery⟩, rfl⟩
    exact ⟨rules, ⟨wire, hflat, rules, hdecode, (), hvalid, rfl⟩, query, hquery, rfl⟩

/-- An item with the comparisons of a document query. -/
def converted (compiler : Compiler) (item : Item) : Item :=
  item.map fun criteria => criteria.converted compiler.schema compiler.settings false

/-- The document query of a list that is a single item. -/
theorem documentQuery_item {item : Item} (hvalid : validate item.rules compiler.schema = .ok ()) :
    compiler.documentQuery item.rules =
      ((compiler.converted item).member? compiler.schema).map fun found =>
        (found.map Member.toQuery).getD .matchAll := by
  have hclauses := haveClauses_of_validate hvalid
  rw [documentQuery_eq_ofRules hvalid]
  rw [convertedRules, ← Item.rules_map] at hclauses ⊢
  exact DocumentQuery.ofRules_item hclauses

end Compiler

namespace RuleGroup

/-- Whether there is a single comparison among the rules of a group. -/
def HasOneCriteria (named : RuleGroup) : Prop :=
  ∃ rules, named.decoded = .ok rules ∧ rules.countP Rule.isCriteria = 1

/-- Each of some groups has a single comparison, their queries are the clauses of these, and the
fields of the clauses lie below a list. -/
structure ShareList (schema : Schema) (groups : List RuleGroup) (queries : List DocumentQuery)
    (clauses : List FieldClause) (root : String) : Prop where
  /-- Each group has a single comparison. -/
  single : ∀ named ∈ groups, named.HasOneCriteria
  /-- The queries of the groups. -/
  queries : queries = clauses.map fun clause => .fields [clause]
  /-- The list. -/
  root : schema.groupingRoot? .array (clauses.map FieldClause.path) = some root

/-- What named groups come down to: the items that they are read as, with valid comparisons, and the
members of these. -/
structure ComeTo (compiler : Compiler) (groups : List RuleGroup) (items : List Item)
    (members : List Member) : Prop where
  /-- The entries have the type of a group. -/
  kinds : ∀ named ∈ groups, named.kind = groupKind
  /-- The items. -/
  reads : List.Forall₂ ReadAs groups items
  /-- The comparisons are valid. -/
  checks : ∀ item ∈ items, ∀ criteria, Rule.criteria criteria ∈ item.rules →
    criteria.check 0 compiler.schema = .ok ()
  /-- The members. -/
  members : List.Forall₂
    (fun item member => (compiler.converted item).member? compiler.schema = .ok (some member))
    items members

variable {compiler : Compiler} {named : RuleGroup} {item : Item} {groups : List RuleGroup}
variable {items : List Item} {members : List Member} {productType : String}
variable {projection : Option (List String)}

/-- A group in order that is compiled alone comes down to a member, unless it matches everything. -/
theorem exists_comeTo_single {query : DocumentQuery} (hordered : named.IsOrdered)
    (hquery : compiler.compileDocument ⟨productType, [.group named], projection⟩ =
      .ok ⟨productType, query, projection⟩) (hne : query ≠ .matchAll) :
    ∃ item member, ComeTo compiler [named] [item] [member] ∧ query = member.toQuery := by
  obtain ⟨rules, found, ⟨wire, hflat, hdecode⟩, hfound, hsame⟩ :=
    Compiler.compileDocument_eq_ok_iff.mp hquery
  obtain rfl : query = found := congrArg DocumentSpec.query hsame
  have hvalid := Compiler.validate_of_documentQuery ⟨query, hfound⟩
  have hgroups : RuleEntry.flatten ([named].map .group) = .ok wire := hflat
  have happart : ∀ group ∈ [named], group.StandsApart := by simpa using hordered.standsApart
  obtain ⟨item, others, hread, rfl⟩ := exists_items_of_standsApart (by simp) hgroups hdecode
    (checkOrder_of_validate hvalid) happart
  have hkinds := ((decodeAll_flatten_readAs_iff hread).mp ⟨wire, hgroups, hdecode⟩).1
  obtain rfl : others = [] := by
    cases hread with
    | cons _ hnil =>
      cases hnil
      rfl
  have hmember : (compiler.converted (Item.conjoined item [])).member? compiler.schema =
      (compiler.converted item).member? compiler.schema := Item.member?_single _
  rw [Compiler.documentQuery_item hvalid, hmember] at hfound
  obtain ⟨member, hitem, hjoined⟩ := Outcome.map_eq_ok_iff.mp hfound
  cases member with
  | none => exact absurd hjoined.symm hne
  | some member =>
    refine ⟨item, member, ⟨hkinds, hread, ?_, .cons hitem .nil⟩, hjoined.symm⟩
    intro inner hinner criteria hcriteria
    exact (validate_eq_ok_iff.mp hvalid).2.1 criteria
      (Item.criteria_mem_conjoined.mpr ⟨inner, hinner, hcriteria⟩)

/-- What one group comes down to, in front of what others do. -/
theorem ComeTo.cons {member : Member} (hfirst : ComeTo compiler [named] [item] [member])
    (hrest : ComeTo compiler groups items members) :
    ComeTo compiler (named :: groups) (item :: items) (member :: members) := by
  obtain ⟨hkind, hread, hcheck, hmember⟩ := hfirst
  obtain ⟨hkinds, hreads, hchecks, hmembers⟩ := hrest
  refine ⟨?_, ?_, ?_, ?_⟩
  · simpa using ⟨by simpa using hkind, hkinds⟩
  · exact .cons (List.forall₂_cons.mp hread).1 hreads
  · exact List.forall_mem_cons.mpr ⟨hcheck item (by simp), hchecks⟩
  · exact .cons (List.forall₂_cons.mp hmember).1 hmembers

/-- Groups in order that are compiled alone come down to members, unless one matches everything. -/
theorem exists_comeTo {queries : List DocumentQuery} (hordered : ∀ named ∈ groups, named.IsOrdered)
    (halone : List.Forall₂ (fun named query =>
      compiler.compileDocument ⟨productType, [.group named], projection⟩ =
        .ok ⟨productType, query, projection⟩ ∧ query ≠ .matchAll) groups queries) :
    ∃ items members, ComeTo compiler groups items members ∧
      queries = members.map Member.toQuery := by
  induction halone with
  | nil => exact ⟨[], [], ⟨by simp, .nil, by simp, .nil⟩, rfl⟩
  | cons hquery _ ih =>
    obtain ⟨hfirst, hrest⟩ := List.forall_mem_cons.mp hordered
    obtain ⟨item, member, hsingle, rfl⟩ := exists_comeTo_single hfirst hquery.1 hquery.2
    obtain ⟨items, members, hcome, rfl⟩ := ih hrest
    exact ⟨item :: items, member :: members, hsingle.cons hcome, rfl⟩

/-- At least two groups are compiled together to the query that joins their members. -/
theorem ComeTo.compileDocument_eq (h : ComeTo compiler groups items members)
    (hmany : 2 ≤ groups.length) :
    compiler.compileDocument ⟨productType, groups.map .group, projection⟩ =
      .ok ⟨productType, resolveGroup .and members compiler.schema, projection⟩ := by
  have hlength := h.reads.length_eq
  match items, h, hlength with
  | [], _, hlength => simp only [List.length_nil] at hlength; omega
  | [_], _, hlength => simp only [List.length_singleton] at hlength; omega
  | item :: next :: others, h, _ =>
    obtain ⟨hkinds, hreads, hchecks, hmembers⟩ := h
    have hgroup : (Item.conjoined item (next :: others)).isGroup := rfl
    have hvalid : validate (Item.conjoined item (next :: others)).rules compiler.schema =
        .ok () := by
      refine validate_eq_ok_iff.mpr ⟨by simp [Item.conjoined, Item.rules], ?_,
        Item.checkOrder_rules hgroup⟩
      intro criteria hcriteria
      obtain ⟨inner, hinner, hmem⟩ := Item.criteria_mem_conjoined.mp hcriteria
      exact hchecks inner hinner criteria hmem
    have hconverted : compiler.converted (Item.conjoined item (next :: others)) =
        Item.conjoined (compiler.converted item) ((next :: others).map compiler.converted) :=
      Item.conjoined_map _ item (next :: others)
    have hconvertedMembers : List.Forall₂
        (fun item member => item.member? compiler.schema = .ok (some member))
        ((item :: next :: others).map compiler.converted) members :=
      List.forall₂_map_left_iff.mpr hmembers
    have hmember := Item.member?_conjoined hconvertedMembers
    refine Compiler.compileDocument_eq_ok_iff.mpr ⟨_, _,
      (decodeAll_flatten_readAs_iff hreads).mpr ⟨hkinds, rfl⟩, ?_, rfl⟩
    rw [Compiler.documentQuery_item hvalid, hconverted, List.map_cons, hmember]
    rfl

/-- The comparisons of a group are those of the item that it is read as. -/
theorem ReadAs.hasOneCriteria_iff (h : named.ReadAs item) :
    named.HasOneCriteria ↔ item.rules.countP Rule.isCriteria = 1 := by
  obtain ⟨body, hbody, hrules⟩ := h.rules
  have hcount : item.rules.countP Rule.isCriteria = body.countP Rule.isCriteria := by
    rw [hrules]
    simp [Rule.enclosed, Rule.isCriteria]
  simp [HasOneCriteria, hbody, hcount]

/-- Groups have single comparisons when the items do that they are read as. -/
theorem forall_hasOneCriteria_iff (hreads : List.Forall₂ ReadAs groups items) :
    (∀ named ∈ groups, named.HasOneCriteria) ↔
      ∀ item ∈ items, item.rules.countP Rule.isCriteria = 1 := by
  induction hreads with
  | nil => simp
  | cons hread _ ih =>
    rw [List.forall_mem_cons, List.forall_mem_cons]
    exact and_congr hread.hasOneCriteria_iff ih

/-- Items come down to clauses when each of them has a single comparison. -/
theorem isSome_clauses?_iff_forall (hmembers : List.Forall₂
      (fun item member => (compiler.converted item).member? compiler.schema = .ok (some member))
      items members) :
    (Member.clauses? members).isSome ↔ ∀ item ∈ items, item.rules.countP Rule.isCriteria = 1 := by
  induction hmembers with
  | nil => simp [Member.clauses?]
  | @cons item member _ _ hmember _ ih =>
    have hcount : (compiler.converted item).rules.countP Rule.isCriteria =
        item.rules.countP Rule.isCriteria := by
      rw [Compiler.converted, Item.rules_map, List.countP_map, Rule.isCriteria_comp_map]
    have hclause := Item.member?_clause_iff _ hmember
    rw [hcount] at hclause
    rw [List.forall_mem_cons, ← hclause]
    cases member with
    | clause single => simpa [Member.clauses?] using ih
    | query joined => simp [Member.clauses?]

/-- Groups come down to clauses when each of them has a single comparison. -/
theorem ComeTo.isSome_clauses?_iff (h : ComeTo compiler groups items members) :
    (Member.clauses? members).isSome ↔ ∀ named ∈ groups, named.HasOneCriteria := by
  rw [isSome_clauses?_iff_forall h.members, forall_hasOneCriteria_iff h.reads]

end RuleGroup

namespace Compiler

variable {compiler : Compiler} {groups : List RuleGroup} {queries : List DocumentQuery}
variable {productType : String} {projection : Option (List String)}

/-- Named groups are compiled like the typed rules that they are flattened to. -/
theorem compileDocument_eq_map {bodies : List (List Rule)} (hne : groups ≠ [])
    (hkinds : ∀ named ∈ groups, named.kind = RuleGroup.groupKind)
    (hbodies : List.Forall₂ (fun named body => named.decoded = .ok body) groups bodies) :
    compiler.compileDocument ⟨productType, groups.map .group, projection⟩ =
      (compiler.documentQuery (Rule.enclosed (Rule.conjoined bodies))).map fun query =>
        ⟨productType, query, projection⟩ := by
  obtain ⟨wire, hflat, hdecode⟩ :=
    (RuleEntry.decodeAll_flatten_eq_ok_iff hne).mpr ⟨hkinds, bodies, hbodies, rfl⟩
  rw [compileDocument, rulesOf, hflat, Outcome.ok_bind, validateWire, hdecode, Outcome.ok_bind,
    documentQuery]
  cases validate (Rule.enclosed (Rule.conjoined bodies)) compiler.schema <;> rfl

/-- One named group is compiled to the document query of its typed rules. -/
theorem compileDocument_single {named : RuleGroup} {body : List Rule} {query : DocumentQuery}
    (hkind : named.kind = RuleGroup.groupKind) (hbody : named.decoded = .ok body)
    (hquery : compiler.documentQuery (Rule.enclosed (Rule.conjoined [body])) = .ok query) :
    compiler.compileDocument ⟨productType, [.group named], projection⟩ =
      .ok ⟨productType, query, projection⟩ := by
  have halone : compiler.compileDocument ⟨productType, [named].map .group, projection⟩ = _ :=
    compileDocument_eq_map (by simp) (by simpa using hkind) (.cons hbody .nil)
  rw [hquery] at halone
  exact halone

/-- Named groups in order that are compiled alone, to queries other than the one that matches
everything, are compiled together to the conjunction of these queries. Only comparisons that share a
list, one in each group, are joined in an element match on that list. -/
theorem compileDocument_groups (hmany : 2 ≤ groups.length)
    (hordered : ∀ named ∈ groups, named.IsOrdered)
    (halone : List.Forall₂ (fun named query =>
      compiler.compileDocument ⟨productType, [.group named], projection⟩ =
        .ok ⟨productType, query, projection⟩ ∧ query ≠ .matchAll) groups queries) :
    ∃ query, compiler.compileDocument ⟨productType, groups.map .group, projection⟩ =
        .ok ⟨productType, query, projection⟩ ∧
      (∀ clauses root, RuleGroup.ShareList compiler.schema groups queries clauses root →
        query = .fields [.mk root (.elementMatch (.and (clauses.map fun clause =>
          .fields [clause.seenFrom root])))]) ∧
      ((∀ clauses root, ¬ RuleGroup.ShareList compiler.schema groups queries clauses root) →
        query = .and queries) := by
  obtain ⟨items, members, hcome, rfl⟩ := RuleGroup.exists_comeTo hordered halone
  have hsingle := hcome.isSome_clauses?_iff
  refine ⟨_, hcome.compileDocument_eq hmany, ?_, ?_⟩
  · intro clauses root hshare
    obtain ⟨found, hfound⟩ := Option.isSome_iff_exists.mp (hsingle.mpr hshare.single)
    obtain rfl := Member.clauses?_eq_some hfound
    have hqueries := hshare.queries
    rw [Member.map_toQuery_clause] at hqueries
    obtain rfl := FieldClause.map_fields_injective hqueries
    simp [resolveGroup, hfound, hshare.root, DocumentQuery.combine]
  · intro hnone
    cases hfound : Member.clauses? members with
    | none => simp [resolveGroup, hfound, DocumentQuery.combine]
    | some clauses =>
      obtain rfl := Member.clauses?_eq_some hfound
      have hone := hsingle.mp (by simp [hfound])
      cases hroot : compiler.schema.groupingRoot? .array (clauses.map FieldClause.path) with
      | none => simp [resolveGroup, hfound, hroot, DocumentQuery.combine]
      | some root =>
        have hshare : RuleGroup.ShareList compiler.schema groups
            ((clauses.map Member.clause).map Member.toQuery) clauses root :=
          ⟨hone, Member.map_toQuery_clause clauses, hroot⟩
        exact absurd hshare (hnone clauses root)

/-- Two comparisons below one list in one group, beside a group with a comparison of its own. -/
theorem compileDocument_groups_prices :
    let compiler : Compiler := ⟨⟨[("type", .ofStrings), ("prices", .nested),
      ("prices.kind", .ofStrings), ("prices.market", .ofStrings)]⟩, {}⟩
    let book : Criteria := ⟨"type", .equal, .value (.text "book"), false⟩
    let listed : Criteria := ⟨"prices.kind", .equal, .value (.text "list"), false⟩
    let traded : Criteria := ⟨"prices.market", .equal, .value (.text "trade"), false⟩
    let books := RuleGroup.ofRules "books" [.criteria book]
    let prices := RuleGroup.ofRules "prices" [.criteria listed, .logical .and, .criteria traded]
    let first : DocumentQuery := .fields [.mk "type" (.compare .equal (.text "book"))]
    let second : DocumentQuery := .fields [.mk "prices" (.elementMatch (.and [
      .fields [.mk "kind" (.compare .equal (.text "list"))],
      .fields [.mk "market" (.compare .equal (.text "trade"))]]))]
    (∀ named ∈ [books, prices], named.IsOrdered) ∧
      List.Forall₂ (fun named query =>
        compiler.compileDocument ⟨"product", [.group named], none⟩ =
          .ok ⟨"product", query, none⟩ ∧ query ≠ .matchAll) [books, prices] [first, second] ∧
      compiler.compileDocument ⟨"product", [books, prices].map .group, none⟩ =
        .ok ⟨"product", .and [first, second], none⟩ := by
  intro compiler book listed traded books prices first second
  have htype : Text.trimmed "type" = "type" := by rfl
  have hkind : Text.trimmed "prices.kind" = "prices.kind" := by rfl
  have hmarket : Text.trimmed "prices.market" = "prices.market" := by rfl
  have hbook (index : Nat) : (WireRule.criteria book).decode index = .ok (.criteria book) :=
    WireRule.decode_criteria htype (by decide) rfl rfl
  have hlisted (index : Nat) : (WireRule.criteria listed).decode index = .ok (.criteria listed) :=
    WireRule.decode_criteria hkind (by decide) rfl rfl
  have htraded (index : Nat) : (WireRule.criteria traded).decode index = .ok (.criteria traded) :=
    WireRule.decode_criteria hmarket (by decide) rfl rfl
  have hbooks : books.decoded = .ok [.criteria book] := by
    simp [books, RuleGroup.ofRules, RuleGroup.decoded, WireRule.decodeFrom, hbook]
  have hprices : prices.decoded = .ok [.criteria listed, .logical .and, .criteria traded] := by
    simp [prices, RuleGroup.ofRules, RuleGroup.decoded, WireRule.decodeFrom, hlisted, htraded]
  have hordered : ∀ named ∈ [books, prices], named.IsOrdered := by
    simp only [List.forall_mem_cons]
    exact ⟨(RuleGroup.isOrdered_iff hbooks).mpr rfl, (RuleGroup.isOrdered_iff hprices).mpr rfl,
      by simp⟩
  have hfirst : compiler.documentQuery (Rule.enclosed (Rule.conjoined [[.criteria book]])) =
      .ok first := by cbv
  have hsecond : compiler.documentQuery (Rule.enclosed (Rule.conjoined
      [[.criteria listed, .logical .and, .criteria traded]])) = .ok second := by cbv
  have hbooksAlone : compiler.compileDocument ⟨"product", [.group books], none⟩ =
      .ok ⟨"product", first, none⟩ := compileDocument_single rfl hbooks hfirst
  have hpricesAlone : compiler.compileDocument ⟨"product", [.group prices], none⟩ =
      .ok ⟨"product", second, none⟩ := compileDocument_single rfl hprices hsecond
  have halone : List.Forall₂ (fun named query =>
      compiler.compileDocument ⟨"product", [.group named], none⟩ =
        .ok ⟨"product", query, none⟩ ∧ query ≠ .matchAll) [books, prices] [first, second] :=
    .cons ⟨hbooksAlone, by simp [first]⟩ (.cons ⟨hpricesAlone, by simp [second]⟩ .nil)
  obtain ⟨query, hquery, _, hand⟩ := compileDocument_groups (by simp) hordered halone
  have hshare : ∀ clauses root,
      ¬ RuleGroup.ShareList compiler.schema [books, prices] [first, second] clauses root := by
    intro clauses root hshare
    have hone := hshare.single prices (by simp)
    simp [RuleGroup.HasOneCriteria, hprices, List.countP_cons, Rule.isCriteria] at hone
  rw [hand hshare] at hquery
  exact ⟨hordered, halone, hquery⟩

/-- A comparison in each of two groups, both below one list: compiled together they must hold for one
element, while alone each may hold for another one. -/
theorem compileDocument_groups_element :
    let compiler : Compiler := ⟨⟨[("prices", .nested), ("prices.kind", .ofStrings),
      ("prices.market", .ofStrings)]⟩, {}⟩
    let listed : Criteria := ⟨"prices.kind", .equal, .value (.text "list"), false⟩
    let traded : Criteria := ⟨"prices.market", .equal, .value (.text "trade"), false⟩
    let kinds := RuleGroup.ofRules "kinds" [.criteria listed]
    let markets := RuleGroup.ofRules "markets" [.criteria traded]
    let first : DocumentQuery := .fields [.mk "prices.kind" (.compare .equal (.text "list"))]
    let second : DocumentQuery := .fields [.mk "prices.market" (.compare .equal (.text "trade"))]
    List.Forall₂ (fun named query =>
        compiler.compileDocument ⟨"product", [.group named], none⟩ =
          .ok ⟨"product", query, none⟩ ∧ query ≠ .matchAll) [kinds, markets] [first, second] ∧
      compiler.compileDocument ⟨"product", [kinds, markets].map .group, none⟩ ≠
        .ok ⟨"product", .and [first, second], none⟩ := by
  intro compiler listed traded kinds markets first second
  have hkind : Text.trimmed "prices.kind" = "prices.kind" := by rfl
  have hmarket : Text.trimmed "prices.market" = "prices.market" := by rfl
  have hlisted (index : Nat) : (WireRule.criteria listed).decode index = .ok (.criteria listed) :=
    WireRule.decode_criteria hkind (by decide) rfl rfl
  have htraded (index : Nat) : (WireRule.criteria traded).decode index = .ok (.criteria traded) :=
    WireRule.decode_criteria hmarket (by decide) rfl rfl
  have hkinds : kinds.decoded = .ok [.criteria listed] := by
    simp [kinds, RuleGroup.ofRules, RuleGroup.decoded, WireRule.decodeFrom, hlisted]
  have hmarkets : markets.decoded = .ok [.criteria traded] := by
    simp [markets, RuleGroup.ofRules, RuleGroup.decoded, WireRule.decodeFrom, htraded]
  have hfirst : compiler.documentQuery (Rule.enclosed (Rule.conjoined [[.criteria listed]])) =
      .ok first := by cbv
  have hsecond : compiler.documentQuery (Rule.enclosed (Rule.conjoined [[.criteria traded]])) =
      .ok second := by cbv
  have htogether : compiler.documentQuery (Rule.enclosed (Rule.conjoined
      [[.criteria listed], [.criteria traded]])) =
      .ok (.fields [.mk "prices" (.elementMatch (.and [
        .fields [.mk "kind" (.compare .equal (.text "list"))],
        .fields [.mk "market" (.compare .equal (.text "trade"))]]))]) := by cbv
  have hkindsAlone : compiler.compileDocument ⟨"product", [.group kinds], none⟩ =
      .ok ⟨"product", first, none⟩ := compileDocument_single rfl hkinds hfirst
  have hmarketsAlone : compiler.compileDocument ⟨"product", [.group markets], none⟩ =
      .ok ⟨"product", second, none⟩ := compileDocument_single rfl hmarkets hsecond
  refine ⟨.cons ⟨hkindsAlone, by simp [first]⟩ (.cons ⟨hmarketsAlone, by simp [second]⟩ .nil), ?_⟩
  rw [compileDocument_eq_map (by simp) (by simp [kinds, markets, RuleGroup.ofRules])
    (.cons hkinds (.cons hmarkets .nil)), htogether]
  simp [Except.map]

/-- The groups have to stand in order. A group that ends early and begins again is compiled alone, to
alternatives across its own marks; beside a second group its connective meets the one between the
groups, and there is no query. -/
theorem compileDocument_groups_unordered :
    let compiler : Compiler := ⟨⟨[("type", .ofStrings)]⟩, {}⟩
    let book : Criteria := ⟨"type", .equal, .value (.text "book"), false⟩
    let disc : Criteria := ⟨"type", .equal, .value (.text "disc"), false⟩
    let game : Criteria := ⟨"type", .equal, .value (.text "game"), false⟩
    let split := RuleGroup.ofRules "split"
      [.criteria book, .separator .closing, .logical .or, .separator .opening, .criteria disc]
    let games := RuleGroup.ofRules "games" [.criteria game]
    let first : DocumentQuery := .or [.fields [.mk "type" (.compare .equal (.text "book"))],
      .fields [.mk "type" (.compare .equal (.text "disc"))]]
    let second : DocumentQuery := .fields [.mk "type" (.compare .equal (.text "game"))]
    ¬ split.IsOrdered ∧ games.IsOrdered ∧
      List.Forall₂ (fun named query =>
        compiler.compileDocument ⟨"product", [.group named], none⟩ =
          .ok ⟨"product", query, none⟩ ∧ query ≠ .matchAll) [split, games] [first, second] ∧
      compiler.compileDocument ⟨"product", [split, games].map .group, none⟩ =
        .error (.structural .mixedConnectives none) := by
  intro compiler book disc game split games first second
  have htype : Text.trimmed "type" = "type" := by rfl
  have hbook (index : Nat) : (WireRule.criteria book).decode index = .ok (.criteria book) :=
    WireRule.decode_criteria htype (by decide) rfl rfl
  have hdisc (index : Nat) : (WireRule.criteria disc).decode index = .ok (.criteria disc) :=
    WireRule.decode_criteria htype (by decide) rfl rfl
  have hgame (index : Nat) : (WireRule.criteria game).decode index = .ok (.criteria game) :=
    WireRule.decode_criteria htype (by decide) rfl rfl
  have hsplit : split.decoded = .ok [.criteria book, .separator .closing, .logical .or,
      .separator .opening, .criteria disc] := by
    simp [split, RuleGroup.ofRules, RuleGroup.decoded, WireRule.decodeFrom, hbook, hdisc]
  have hgames : games.decoded = .ok [.criteria game] := by
    simp [games, RuleGroup.ofRules, RuleGroup.decoded, WireRule.decodeFrom, hgame]
  have hrefused : checkOrder (Rule.enclosed [.criteria book, .separator .closing, .logical .or,
      .separator .opening, .criteria disc]) =
      .error (.structural .improperOrder (some 3)) := by rfl
  have hunordered : ¬ split.IsOrdered := by simp [RuleGroup.isOrdered_iff hsplit, hrefused]
  have hfirst : compiler.documentQuery (Rule.enclosed (Rule.conjoined [[.criteria book,
      .separator .closing, .logical .or, .separator .opening, .criteria disc]])) =
      .ok first := by cbv
  have hsecond : compiler.documentQuery (Rule.enclosed (Rule.conjoined [[.criteria game]])) =
      .ok second := by cbv
  have htogether : compiler.documentQuery (Rule.enclosed (Rule.conjoined [[.criteria book,
      .separator .closing, .logical .or, .separator .opening, .criteria disc],
      [.criteria game]])) = .error (.structural .mixedConnectives none) := by cbv
  have hsplitAlone : compiler.compileDocument ⟨"product", [.group split], none⟩ =
      .ok ⟨"product", first, none⟩ := compileDocument_single rfl hsplit hfirst
  have hgamesAlone : compiler.compileDocument ⟨"product", [.group games], none⟩ =
      .ok ⟨"product", second, none⟩ := compileDocument_single rfl hgames hsecond
  refine ⟨hunordered, (RuleGroup.isOrdered_iff hgames).mpr rfl,
    .cons ⟨hsplitAlone, by simp [first]⟩ (.cons ⟨hgamesAlone, by simp [second]⟩ .nil), ?_⟩
  rw [compileDocument_eq_map (by simp) (by simp [split, games, RuleGroup.ofRules])
    (.cons hsplit (.cons hgames .nil)), htogether]
  rfl

end Compiler

end FilterRules
