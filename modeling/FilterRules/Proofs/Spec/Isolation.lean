import FilterRules.Proofs.Spec.Composition

/-!
# When named groups are kept apart

The rules of a named group are put between two marks, but only the flattened list is checked for
order. A group may therefore end early and begin again, as long as the marks of the whole list fit:
its rules are then combined with those of other groups. Named groups are kept apart exactly when the
rules of each of them stand in order between its own two marks.
-/

namespace FilterRules

/-- The marker that a rule leaves on the stack, unless it is a closing mark. -/
def Rule.marker : Rule → Marker
  | .separator _ => .opening
  | .logical _ => .logical
  | .criteria _ => .item

/-- A rule that ends no group begins one when its marker is an opening mark. -/
theorem Rule.count_opening {rule : Rule} (hrule : rule ≠ .separator .closing) :
    [rule].count (.separator .closing) = 0 ∧
      [rule].count (.separator .opening) = [rule.marker].count .opening := by
  cases rule with
  | separator mark =>
    cases mark with
    | opening => exact ⟨rfl, rfl⟩
    | closing => exact absurd rfl hrule
  | logical connective => exact ⟨rfl, rfl⟩
  | criteria criteria => exact ⟨rfl, rfl⟩

namespace Marker

variable {inside base stack below final next : List Marker} {rule : Rule} {rules : List Rule}

/-- A rule that follows the upper part of a stack leaves its marker there. -/
theorem step_of_append (hne : inside ≠ []) (hrule : rule ≠ .separator .closing)
    (h : step (inside ++ base) rule = some next) :
    next = rule.marker :: (inside ++ base) ∧ step inside rule = some (rule.marker :: inside) := by
  cases inside with
  | nil => exact absurd rfl hne
  | cons marker below =>
    cases rule with
    | separator mark =>
      cases mark with
      | opening => cases marker <;> simp_all [step, Rule.marker]
      | closing => exact absurd rfl hrule
    | logical connective => cases marker <;> simp_all [step, Rule.marker]
    | criteria criteria => cases marker <;> simp_all [step, Rule.marker]

/-- The innermost opening mark of the upper part of a stack is that of the stack. -/
theorem belowOpening?_append_some (h : belowOpening? inside = some below) (base : List Marker) :
    belowOpening? (inside ++ base) = some (below ++ base) := by
  induction inside with
  | nil => simp [belowOpening?] at h
  | cons marker inside ih => cases marker <;> simp_all [belowOpening?]

/-- Where the upper part of a stack has no opening mark, the next one is in the lower part. -/
theorem belowOpening?_append_none (h : belowOpening? inside = none) (base : List Marker) :
    belowOpening? (inside ++ base) = belowOpening? base := by
  induction inside with
  | nil => rfl
  | cons marker inside ih => cases marker <;> simp_all [belowOpening?]

/-- Below the innermost opening mark stand all the others. -/
theorem count_of_belowOpening? (inside : List Marker) :
    inside.count .opening =
      ((belowOpening? inside).map fun below => below.count .opening + 1).getD 0 := by
  induction inside with
  | nil => rfl
  | cons marker inside ih => cases marker <;> simp_all [belowOpening?]

/-- A group ends on the upper part of a stack as it does on the stack, if it can. -/
theorem step_closing_of_append (hne : inside ≠ [])
    (h : step (inside ++ base) (.separator .closing) = some next) :
    close? (inside ++ base) = some next ∧ step inside (.separator .closing) = close? inside := by
  cases inside with
  | nil => exact absurd rfl hne
  | cons marker below => cases marker <;> simp_all [step]

/-- A closing mark ends the group that was opened on top of a part of a stack, or else one inside of
that group. -/
theorem step_closing_cases (hbase : base ≠ [])
    (h : step (inside ++ [.opening] ++ base) (.separator .closing) = some next) :
    (inside.count .opening = 0 ∧ next = .item :: base ∧
        step (inside ++ [.opening]) (.separator .closing) = some []) ∨
      ∃ below, inside.count .opening = (Marker.item :: below).count .opening + 1 ∧
        next = .item :: below ++ [.opening] ++ base ∧
        step (inside ++ [.opening]) (.separator .closing) =
          some (.item :: below ++ [.opening]) := by
  obtain ⟨hclose, hinside⟩ := step_closing_of_append (by simp) h
  rw [List.append_assoc] at hclose
  rw [hinside]
  have hcount := count_of_belowOpening? inside
  cases hbelow : belowOpening? inside with
  | none =>
    have hwhole : belowOpening? (inside ++ ([.opening] ++ base)) = some base :=
      belowOpening?_append_none hbelow _
    have halone : belowOpening? (inside ++ [.opening]) = some [] :=
      belowOpening?_append_none hbelow _
    rw [close?_of_belowOpening? hwhole, afterGroup_of_ne_nil hbase] at hclose
    rw [hbelow] at hcount
    exact Or.inl ⟨hcount, (Option.some.inj hclose).symm, close?_of_belowOpening? halone⟩
  | some below =>
    have hwhole : belowOpening? (inside ++ ([.opening] ++ base)) =
        some (below ++ ([.opening] ++ base)) := belowOpening?_append_some hbelow _
    have halone : belowOpening? (inside ++ [.opening]) = some (below ++ [.opening]) :=
      belowOpening?_append_some hbelow _
    rw [close?_of_belowOpening? hwhole, afterGroup_of_ne_nil (by simp)] at hclose
    rw [hbelow] at hcount
    refine Or.inr ⟨below, ?_, ?_, ?_⟩
    · rw [List.count_cons_of_ne (by decide)]
      exact hcount
    · simpa using hclose.symm
    · rw [close?_of_belowOpening? halone, afterGroup_of_ne_nil (by simp)]
      rfl

/-- An item in a list leaves its marker where an item may stand. -/
theorem foldlM_item (item : Item) (hstack : AwaitsItem stack) :
    item.rules.foldlM step stack = some (.item :: stack) :=
  accepts_of_derives item.derives stack hstack

end Marker

namespace Scaffold

variable {scaffold next built : Scaffold} {index : Nat} {rule : Rule} {rules : List Rule}

/-- Nothing follows once all groups are closed: a further group would need a connective in front of
it, and everything else an open group. -/
theorem eq_nil_of_closed {base final : List Marker} (hframes : scaffold.frames = [])
    (hbuild : scaffold.run index rules = .ok built)
    (hrun : rules.foldlM Marker.step (.item :: base) = some final) : rules = [] := by
  obtain ⟨roots, frames⟩ := scaffold
  obtain rfl : frames = [] := hframes
  cases rules with
  | nil => rfl
  | cons rule rest =>
    obtain ⟨stack, hstep, _⟩ := Option.bind_eq_some_iff.mp hrun
    obtain ⟨next, hnext, _⟩ := Outcome.bind_eq_ok_iff.mp hbuild
    rcases rule with (_ | _) | _ | _
    · simp [Marker.step] at hstep
    · simp [step] at hnext
    · simp [step] at hnext
    · simp [step] at hnext

/-- Rules that build a tree up to the end of the group that they stand in, and that stand in order
inside of a longer list, stand in order without that list. -/
theorem foldlM_of_closed {base upper final : List Marker} (hbase : base ≠ [])
    (hdepth : scaffold.frames.length = upper.count .opening + 1)
    (hbuild : scaffold.run index rules = .ok built) (hbuilt : built.frames = [])
    (hrun : rules.foldlM Marker.step (upper ++ [.opening] ++ base) = some final) :
    rules.foldlM Marker.step (upper ++ [.opening]) = some [] := by
  -- Each opening mark above `base` is that of a frame, so that the scaffold tells which closing mark
  -- would lead below; behind that one nothing can follow.
  induction rules generalizing index scaffold upper with
  | nil =>
    obtain rfl : scaffold = built := Except.ok.inj hbuild
    rw [hbuilt] at hdepth
    simp at hdepth
  | cons rule rest ih =>
    obtain ⟨stack, hstep, hrest⟩ := Option.bind_eq_some_iff.mp hrun
    obtain ⟨next, hnext, hbuilds⟩ := Outcome.bind_eq_ok_iff.mp hbuild
    rw [List.foldlM_cons]
    by_cases hrule : rule = .separator .closing
    · subst hrule
      have hframes : next.frames.length + 1 = scaffold.frames.length := length_frames_step hnext
      rcases Marker.step_closing_cases hbase hstep with
        ⟨hcount, rfl, hinside⟩ | ⟨below, hcount, rfl, hinside⟩
      · have hclosed : next.frames = [] := List.length_eq_zero_iff.mp (by omega)
        rw [hinside, eq_nil_of_closed hclosed hbuilds hrest]
        rfl
      · have hless : next.frames.length = (Marker.item :: below).count .opening + 1 := by omega
        rw [hinside]
        exact ih hless hbuilds hrest
    · have hne : upper ++ [Marker.opening] ≠ [] := by simp
      have hframes := length_frames_step hnext
      obtain ⟨rfl, hinside⟩ := Marker.step_of_append hne hrule hstep
      have hmore : next.frames.length = (rule.marker :: upper).count .opening + 1 := by
        obtain ⟨hclosing, hopening⟩ := Rule.count_opening hrule
        rw [hclosing, hopening] at hframes
        rw [← List.singleton_append, List.count_append]
        omega
      rw [hinside]
      exact ih hmore hbuilds hrest

end Scaffold

/-- A scaffold with a root has no open groups. -/
theorem Scaffold.frames_of_root {scaffold : Scaffold} {tree : Tree} (h : scaffold.root = .ok tree) :
    scaffold.frames = [] := by
  obtain ⟨roots, frames⟩ := scaffold
  cases frames with
  | nil => rfl
  | cons frame outer => simp [Scaffold.root] at h

/-- A group begins with an opening mark. -/
theorem Item.exists_opening {item : Item} (hgroup : item.isGroup) :
    ∃ rest, item.rules = .separator .opening :: rest := by
  cases item with
  | criteria criteria => simp [Item.isGroup] at hgroup
  | empty => exact ⟨_, rfl⟩
  | group lead items => exact ⟨_, rfl⟩

namespace RuleGroup

variable {named : RuleGroup} {child : Tree} {groups : List RuleGroup}

/-- Whether the rules of a group are read as an item wherever an item may stand and they follow in
order. -/
def StandsApart (named : RuleGroup) : Prop :=
  ∀ body stack final, named.decoded = .ok body → Marker.AwaitsItem stack →
    (Rule.enclosed body).foldlM Marker.step stack = some final → ∃ item, named.ReadAs item

/-- A group whose rules stand in order between its marks stands apart: a second group on top would
have to follow an item without a connective between them. -/
theorem IsOrdered.standsApart (hordered : named.IsOrdered) : named.StandsApart := by
  intro body stack final hbody hstack hrun
  obtain ⟨items, hitems, hrules⟩ :=
    exists_groups_of_checkOrder ((isOrdered_iff hbody).mp hordered)
  match items, hitems, hrules with
  | [], _, hrules => simp [Item.rulesOf, Rule.enclosed] at hrules
  | [item], hitems, hrules =>
    rw [Item.rulesOf_single] at hrules
    exact ⟨item, hitems item (by simp), body, hbody, hrules⟩
  | first :: second :: rest, hitems, hrules =>
    obtain ⟨others, hsecond⟩ := Item.exists_opening (hitems second (by simp))
    have hparts : Rule.enclosed body =
        first.rules ++ .separator .opening :: (others ++ Item.rulesOf rest) := by
      rw [← hrules]
      simp [Item.rulesOf, hsecond]
    rw [hparts, List.foldlM_append, Marker.foldlM_item first hstack] at hrun
    simp [Marker.step] at hrun

/-- A group whose rules have a tree between its marks stands apart. -/
theorem standsApart_of_tree (htree : named.tree = .ok child) : named.StandsApart := by
  intro body stack final hbody hstack hrun
  have hscaffold := htree
  rw [tree_eq hbody, Tree.ofRules_eq_scaffold] at hscaffold
  obtain ⟨built, hbuild, hroot⟩ := Outcome.bind_eq_ok_iff.mp hscaffold
  rw [Rule.enclosed, List.foldlM_cons, Marker.step_opening (Or.inr hstack)] at hrun
  have hinner : (body ++ [Rule.separator .closing]).foldlM Marker.step ([] ++ [.opening] ++ stack) =
      some final := hrun
  have hopened : Scaffold.run (Scaffold.openGroup {}) 1 (body ++ [.separator .closing]) =
      .ok built := hbuild
  have halone : (body ++ [Rule.separator .closing]).foldlM Marker.step ([] ++ [.opening]) =
      some [] :=
    Scaffold.foldlM_of_closed hstack.ne_nil rfl hopened (Scaffold.frames_of_root hroot) hinner
  have horder : checkOrder (Rule.enclosed body) = .ok () := checkOrder_eq_ok_iff.mpr halone
  exact exists_readAs ((isOrdered_iff hbody).mpr horder) htree

/-- Groups that stand apart are read as items in a list in order. -/
theorem exists_items_of_foldlM {stack final : List Marker} {bodies : List (List Rule)}
    {first : RuleGroup} {rest : List RuleGroup}
    (hbodies : List.Forall₂ (fun named body => named.decoded = .ok body) (first :: rest) bodies)
    (hstack : Marker.AwaitsItem stack) (happart : ∀ named ∈ first :: rest, named.StandsApart)
    (hrun : (Rule.conjoined bodies).foldlM Marker.step stack = some final) :
    ∃ items, List.Forall₂ ReadAs (first :: rest) items := by
  induction rest generalizing first bodies stack with
  | nil =>
    obtain ⟨body, others, hbody, hothers, rfl⟩ := List.forall₂_cons_left_iff.mp hbodies
    obtain rfl := List.forall₂_nil_left_iff.mp hothers
    rw [Rule.conjoined_single] at hrun
    obtain ⟨item, hitem⟩ := happart first (by simp) body stack final hbody hstack hrun
    exact ⟨[item], .cons hitem .nil⟩
  | cons second rest ih =>
    obtain ⟨body, others, hbody, hothers, rfl⟩ := List.forall₂_cons_left_iff.mp hbodies
    obtain ⟨next, last, _, _, rfl⟩ := List.forall₂_cons_left_iff.mp hothers
    rw [Rule.conjoined_cons_cons, List.foldlM_append] at hrun
    obtain ⟨middle, hfirst, hrest⟩ := Option.bind_eq_some_iff.mp hrun
    -- The first group leaves an item, and the connective behind it lets another group follow.
    obtain ⟨item, hitem⟩ := happart first (by simp) body stack middle hbody hstack hfirst
    obtain ⟨_, hdecoded, hrules⟩ := hitem.rules
    obtain rfl := Except.ok.inj (hdecoded.symm.trans hbody)
    rw [← hrules, Marker.foldlM_item item hstack] at hfirst
    obtain rfl := Option.some.inj hfirst
    have hlater : ∀ named ∈ second :: rest, named.StandsApart :=
      fun named hnamed => happart named (List.mem_cons_of_mem _ hnamed)
    have hawaits : Marker.AwaitsItem (.logical :: .item :: stack) := trivial
    obtain ⟨items, hitems⟩ := ih hothers hawaits hlater hrest
    exact ⟨item :: items, .cons hitem hitems⟩

variable {wire : List WireRule} {rules : List Rule} {tree : Tree}

/-- In a flattened list in order, groups that stand apart are read as items. -/
theorem exists_items_of_standsApart (hne : groups ≠ [])
    (hflat : RuleEntry.flatten (groups.map .group) = .ok wire)
    (hdecode : WireRule.decodeAll wire = .ok rules) (horder : checkOrder rules = .ok ())
    (happart : ∀ named ∈ groups, named.StandsApart) :
    ∃ item others, List.Forall₂ ReadAs groups (item :: others) ∧
      rules = (Item.conjoined item others).rules := by
  have hflatten := (RuleEntry.decodeAll_flatten_eq_ok_iff hne).mp ⟨wire, hflat, hdecode⟩
  obtain ⟨_, bodies, hbodies, hrules⟩ := hflatten
  obtain ⟨first, rest, rfl⟩ := List.exists_cons_of_ne_nil hne
  have hrun : (Rule.conjoined bodies ++ [Rule.separator .closing]).foldlM Marker.step [.opening] =
      some [] := by
    rw [hrules] at horder
    exact checkOrder_eq_ok_iff.mp horder
  rw [List.foldlM_append] at hrun
  obtain ⟨middle, hgroups, _⟩ := Option.bind_eq_some_iff.mp hrun
  have hstart : Marker.AwaitsItem [.opening] := trivial
  obtain ⟨items, hread⟩ := exists_items_of_foldlM hbodies hstart happart hgroups
  obtain ⟨item, others, _, _, rfl⟩ := List.forall₂_cons_left_iff.mp hread
  exact ⟨item, others, hread, ((decodeAll_flatten_readAs_iff hread).mp ⟨wire, hflat, hdecode⟩).2⟩

/-- Named groups are kept apart exactly when the rules of each stand in order between its own marks:
then, and only then, the tree of a flattened list in order joins the trees of the groups by `AND`,
one child for each group. -/
theorem isolated_iff_isOrdered (hne : groups ≠ [])
    (hflat : RuleEntry.flatten (groups.map .group) = .ok wire)
    (hdecode : WireRule.decodeAll wire = .ok rules) (horder : checkOrder rules = .ok ())
    (htree : Tree.ofRules rules = .ok tree) :
    (∃ trees, tree = .group .and trees ∧
        List.Forall₂ (fun named child => named.tree = .ok child) groups trees) ↔
      ∀ named ∈ groups, named.IsOrdered := by
  constructor
  · rintro ⟨trees, _, htrees⟩
    have happart : ∀ named ∈ groups, named.StandsApart :=
      ((List.forall₂_and_left _ _).mp (htrees.imp fun _ _ h => ⟨standsApart_of_tree h, h⟩)).1
    obtain ⟨item, others, hread, _⟩ :=
      exists_items_of_standsApart hne hflat hdecode horder happart
    exact ((List.forall₂_and_left _ _).mp (hread.imp fun _ _ h => ⟨h.isOrdered, h⟩)).1
  · intro hordered
    have happart : ∀ named ∈ groups, named.StandsApart :=
      fun named hnamed => (hordered named hnamed).standsApart
    obtain ⟨item, others, hread, rfl⟩ :=
      exists_items_of_standsApart hne hflat hdecode horder happart
    have hgroup : (Item.conjoined item others).isGroup := rfl
    rw [Tree.ofRules_item hgroup, Item.tree_eq_ok_iff, Item.hasTree_conjoined_iff] at htree
    obtain ⟨trees, rfl, htrees⟩ := htree
    exact ⟨trees, rfl, (forall₂_tree_iff hread).mpr htrees⟩

/-- Two groups of which the first joins two comparisons by `OR`. -/
theorem isolated_iff_isOrdered_alternatives :
    let book : Criteria := ⟨"type", .equal, .value (.text "book"), false⟩
    let disc : Criteria := ⟨"type", .equal, .value (.text "disc"), false⟩
    let kinds := ofRules "kinds" [.criteria book, .logical .or, .criteria disc]
    let books := ofRules "books" [.criteria book]
    let rules := Rule.enclosed (Rule.conjoined
      [[.criteria book, .logical .or, .criteria disc], [.criteria book]])
    let tree : Tree :=
      .group .and [.group .or [.leaf book, .leaf disc], .group .and [.leaf book]]
    ∃ wire, RuleEntry.flatten ([kinds, books].map .group) = .ok wire ∧
      WireRule.decodeAll wire = .ok rules ∧ checkOrder rules = .ok () ∧
        Tree.ofRules rules = .ok tree ∧ ∀ named ∈ [kinds, books], named.IsOrdered := by
  intro book disc kinds books rules tree
  have htype : Text.trimmed "type" = "type" := by rfl
  have hbook (index : Nat) : (WireRule.criteria book).decode index = .ok (.criteria book) :=
    WireRule.decode_criteria htype (by decide) rfl rfl
  have hdisc (index : Nat) : (WireRule.criteria disc).decode index = .ok (.criteria disc) :=
    WireRule.decode_criteria htype (by decide) rfl rfl
  have hkinds : kinds.decoded = .ok [.criteria book, .logical .or, .criteria disc] := by
    simp [kinds, ofRules, decoded, WireRule.decodeFrom, hbook, hdisc]
  have hbooks : books.decoded = .ok [.criteria book] := by
    simp [books, ofRules, decoded, WireRule.decodeFrom, hbook]
  have hne : [kinds, books] ≠ [] := by simp
  obtain ⟨wire, hflat, hdecode⟩ := (RuleEntry.decodeAll_flatten_eq_ok_iff hne).mpr
    ⟨by simp [kinds, books, ofRules], _, .cons hkinds (.cons hbooks .nil), rfl⟩
  have horder : checkOrder rules = .ok () := by rfl
  have htree : Tree.ofRules rules = .ok tree := by rfl
  have hfirst : kinds.tree = .ok (.group .or [.leaf book, .leaf disc]) := by
    rw [tree_eq hkinds]
    rfl
  have hsecond : books.tree = .ok (.group .and [.leaf book]) := by
    rw [tree_eq hbooks]
    rfl
  have hordered := (isolated_iff_isOrdered hne hflat hdecode horder htree).mp
    ⟨_, rfl, .cons hfirst (.cons hsecond .nil)⟩
  exact ⟨wire, hflat, hdecode, horder, htree, hordered⟩

/-- A group that ends early and begins again, beside one that ends once more: the flattened list is
in order and has a tree, which holds when the first comparison alone does. -/
theorem not_isolated_of_marks :
    let book : Criteria := ⟨"type", .equal, .value (.text "book"), false⟩
    let disc : Criteria := ⟨"type", .equal, .value (.text "disc"), false⟩
    let game : Criteria := ⟨"type", .equal, .value (.text "game"), false⟩
    let first := ofRules "first" [.criteria book, .separator .closing, .logical .or,
      .separator .opening, .separator .opening, .criteria disc]
    let second := ofRules "second" [.criteria game, .separator .closing]
    let rules := Rule.enclosed (Rule.conjoined
      [[.criteria book, .separator .closing, .logical .or, .separator .opening,
        .separator .opening, .criteria disc], [.criteria game, .separator .closing]])
    let tree : Tree := .group .or [.group .and [.leaf book],
      .group .and [.group .and [.leaf disc], .group .and [.leaf game]]]
    ∃ wire, RuleEntry.flatten ([first, second].map .group) = .ok wire ∧
      WireRule.decodeAll wire = .ok rules ∧ checkOrder rules = .ok () ∧
        Tree.ofRules rules = .ok tree ∧
        ¬ ∃ trees, tree = .group .and trees ∧
          List.Forall₂ (fun named child => named.tree = .ok child) [first, second] trees := by
  intro book disc game first second rules tree
  have htype : Text.trimmed "type" = "type" := by rfl
  have hbook (index : Nat) : (WireRule.criteria book).decode index = .ok (.criteria book) :=
    WireRule.decode_criteria htype (by decide) rfl rfl
  have hdisc (index : Nat) : (WireRule.criteria disc).decode index = .ok (.criteria disc) :=
    WireRule.decode_criteria htype (by decide) rfl rfl
  have hgame (index : Nat) : (WireRule.criteria game).decode index = .ok (.criteria game) :=
    WireRule.decode_criteria htype (by decide) rfl rfl
  have hfirst : first.decoded = .ok [.criteria book, .separator .closing, .logical .or,
      .separator .opening, .separator .opening, .criteria disc] := by
    simp [first, ofRules, decoded, WireRule.decodeFrom, hbook, hdisc]
  have hsecond : second.decoded = .ok [.criteria game, .separator .closing] := by
    simp [second, ofRules, decoded, WireRule.decodeFrom, hgame]
  obtain ⟨wire, hflat, hdecode⟩ :=
    (RuleEntry.decodeAll_flatten_eq_ok_iff (by simp : [first, second] ≠ [])).mpr
      ⟨by simp [first, second, ofRules], _, .cons hfirst (.cons hsecond .nil), rfl⟩
  have horder : checkOrder rules = .ok () := by rfl
  have htree : Tree.ofRules rules = .ok tree := by
    rw [Tree.ofRules_eq_scaffold]
    rfl
  exact ⟨wire, hflat, hdecode, horder, htree, by simp [tree]⟩

end RuleGroup

end FilterRules
